-- SUMMARY: What looking up a name finds: the first entry whose name is a prefix of it, for the first component of a path.
import OperatingSystems.Ext2.Additions

/-!
# Lookups

`check_block_for_dir` compares as many characters as the name of the entry has, so an entry whose name
is a prefix of the one looked for is taken for it. `dir_entry_exists` takes the size of a pointer for
the length of the path, and looks up only one component.
-/

namespace Ext2

open Library Library.Process Library.Records

variable {s : State} {a b n start k : Nat} {bs cs : List Byte} {e : DirEntry} {es : List DirEntry}
  {ess : List (List DirEntry)} {blocks pre : List Nat} {name c : Name} {path : List Name}

/-! ## Comparing names -/

/-- Whether `strncmp` of a string and all of some bytes gives 0. -/
def strncmpList : List Byte → List Byte → Bool
  | _, [] => true
  | [], c :: _ => c = 0
  | b :: bs, c :: cs => b = c && strncmpList bs cs

theorem run_strncmpEq (h : a + n ≤ s.size) :
    (strncmpEq bs a n).run s = .done (strncmpList bs (Memory.load s.disk a n)) s := by
  induction n generalizing bs a with
  | zero => rw [strncmpEq, Memory.load, strncmpList, run_pure]
  | succ n ih =>
    cases bs with
    | nil =>
      rw [strncmpEq, bind_done (run_loadByte (by omega)), Memory.load, strncmpList, run_pure]
    | cons b bs =>
      rw [strncmpEq, bind_done (run_loadByte (by omega)), Memory.load, strncmpList]
      by_cases hb : b = s.disk a
      · rw [if_pos hb, ih (by omega)]
        simp [hb]
      · rw [if_neg hb, run_pure]
        simp [hb]

/-- The bytes are a prefix of the string, or the string with its NUL is one of them. -/
theorem strncmpList_iff : strncmpList bs cs = true ↔ cs <+: bs ∨ bs ++ [0] <+: cs := by
  induction bs generalizing cs with
  | nil =>
    cases cs with
    | nil => simp [strncmpList]
    | cons c cs =>
      rw [strncmpList, decide_eq_true_eq, List.nil_append, List.cons_prefix_cons]
      constructor
      · rintro rfl
        exact .inr ⟨rfl, List.nil_prefix⟩
      · rintro (h | ⟨h, _⟩)
        · exact absurd h (by simp)
        · exact h.symm
  | cons b bs ih =>
    cases cs with
    | nil => simp [strncmpList]
    | cons c cs =>
      rw [strncmpList, Bool.and_eq_true, ih, List.cons_append, List.cons_prefix_cons, List.cons_prefix_cons,
        decide_eq_true_eq]
      constructor
      · rintro ⟨rfl, h | h⟩
        · exact .inl ⟨rfl, h⟩
        · exact .inr ⟨rfl, h⟩
      · rintro (⟨rfl, h⟩ | ⟨rfl, h⟩)
        · exact ⟨rfl, .inl h⟩
        · exact ⟨rfl, .inr h⟩

/-- The name of the entry is a prefix of the name looked for, or goes on behind it after a NUL. -/
def Name.Matches (name : Name) (e : DirEntry) : Prop :=
  e.name <+: name.chars ∨ name.chars ++ [0] <+: e.name

instance : DecidablePred name.Matches := fun e =>
  inferInstanceAs (Decidable (e.name <+: name.chars ∨ name.chars ++ [0] <+: e.name))

theorem Name.matches_of_eq (h : e.name = name.chars) : name.Matches e := .inl (h ▸ List.prefix_rfl)

/-- What the lookup of a name among entries gives. -/
def firstMatch (name : Name) (es : List DirEntry) : Nat :=
  ((es.find? (name.Matches ·)).map DirEntry.inode).getD 0

theorem firstMatch_of_none (h : es.find? (name.Matches ·) = none) : firstMatch name es = 0 := by
  rw [firstMatch, h]
  rfl

theorem firstMatch_of_some (h : es.find? (name.Matches ·) = some e) : firstMatch name es = e.inode := by
  rw [firstMatch, h]
  rfl

/-- Without unused entries, a lookup that gives 0 has found nothing. -/
theorem firstMatch_append {es' : List DirEntry} (hne : ∀ e ∈ es, e.inode ≠ 0) :
    firstMatch name (es ++ es') =
      if firstMatch name es ≠ 0 then firstMatch name es else firstMatch name es' := by
  rw [firstMatch, List.find?_append]
  cases hfind : es.find? (name.Matches ·) with
  | none =>
    rw [firstMatch_of_none hfind, Option.none_or, if_neg (by simp)]
    rfl
  | some e =>
    rw [firstMatch_of_some hfind, if_pos (hne e (List.mem_of_find?_eq_some hfind))]
    rfl

/-! ## Looking up a name in a block -/

/-- The walk along a chain stops at the first entry that matches. -/
theorem loop_checkBlockForDir (name : Name) {p fuel : Nat} (h : Chain entries s.disk p es)
    (hsize : p + sizes entries es ≤ s.size) (hfuel : es.length < fuel) :
    (loop .diverges (checkBlockForDirRound name) fuel ((sizes entries es : Int), p)).run s =
      .done (firstMatch name es) s := by
  obtain ⟨fuel, rfl⟩ := Nat.exists_eq_succ_of_ne_zero (Nat.ne_zero_of_lt hfuel)
  induction es generalizing p fuel with
  | nil =>
    refine loop_of_stop ?_
    rw [checkBlockForDirRound, if_neg (by simp)]
    rfl
  | cons r es ih =>
    obtain ⟨hread, hvalid, hrest⟩ := h
    have hread : decodeEntry s.disk p = r := hread
    have hvalid : 8 + r.nameLen ≤ r.recLen := hvalid
    rw [sizes_cons, size_entries] at hsize
    have hnameLen : word s.disk 1 (p + 6) = r.nameLen := congrArg DirEntry.nameLen hread
    have hrecLen : word s.disk 2 (p + 4) = r.recLen := congrArg DirEntry.recLen hread
    have hinode : word s.disk 4 p = r.inode := congrArg DirEntry.inode hread
    have hname : Memory.load s.disk (p + 8) r.nameLen = r.name := by
      rw [← hnameLen]
      exact congrArg DirEntry.name hread
    have hpos : ((sizes entries (r :: es) : Nat) : Int) > 0 := by
      rw [sizes_cons, size_entries]
      omega
    by_cases hmatch : name.Matches r
    · have heq : strncmpList name.chars r.name = true := strncmpList_iff.mpr hmatch
      rw [firstMatch_of_some (List.find?_cons_of_pos (by simpa using hmatch))]
      refine loop_of_stop ?_
      rw [checkBlockForDirRound, if_pos hpos, bind_done (run_loadWord (by omega)), hnameLen,
        bind_done (run_strncmpEq (by omega)), hname, heq, if_pos rfl, bind_done (run_loadWord (by omega)), hinode,
        run_pure]
    · have heq : ¬strncmpList name.chars r.name = true := fun h => hmatch (strncmpList_iff.mp h)
      have hskip : firstMatch name (r :: es) = firstMatch name es := by
        rw [firstMatch, List.find?_cons_of_neg (by simpa using hmatch), firstMatch]
      have hbody : (checkBlockForDirRound name ((sizes entries (r :: es) : Int), p)).run s =
          .done (.next ((sizes entries es : Int), p + r.recLen)) s := by
        rw [checkBlockForDirRound, if_pos hpos, bind_done (run_loadWord (by omega)), hnameLen,
          bind_done (run_strncmpEq (by omega)), hname, if_neg heq, bind_done (run_loadWord (by omega)), hrecLen,
          run_pure, sizes_cons, size_entries]
        congr 3
        push_cast
        omega
      rw [List.length_cons] at hfuel
      obtain ⟨fuel, rfl⟩ := Nat.exists_eq_succ_of_ne_zero (n := fuel) (by omega)
      rw [size_entries] at hrest
      rw [loop_of_next hbody, ih hrest (by omega) fuel (by omega), hskip]

theorem run_checkBlockForDir (h : Block s.disk b es) (hsize : s.size ≤ 2 ^ 31)
    (hmapped : b * EXT2_BLOCK_SIZE + EXT2_BLOCK_SIZE ≤ s.size) :
    (checkBlockForDir b name).run s = .done (firstMatch name es) s := by
  have hlen := h.1.length_le_sizes
  have h1024 : EXT2_BLOCK_SIZE = 1024 := rfl
  have hrun := loop_checkBlockForDir name h.1 (by rw [h.2]; exact hmapped)
    (show es.length < chainRounds by rw [chainRounds, ← h.2]; omega)
  have hb : b < 2 ^ 21 := by
    unfold EXT2_BLOCK_SIZE at hmapped
    omega
  rw [h.2] at hrun
  rw [checkBlockForDir, blockAddr, if_pos hb, Process.pure_bind, hrun]

/-! ### Exact names -/

/-- `check_block_for_dir` gives the inode of the entry with the name, and 0 exactly if there is none. -/
def FindsExactly (s : State) (b : Nat) (es : List DirEntry) (name : Name) : Prop :=
  (∀ e ∈ es, e.name = name.chars → (checkBlockForDir b name).run s = .done e.inode s) ∧
  ((checkBlockForDir b name).run s = .done 0 s ↔ ∀ e ∈ es, e.name ≠ name.chars)

/-- The first entry that matches has the name, or is another link to the inode of the one that has. -/
def FirstIsExact (name : Name) (es : List DirEntry) : Prop :=
  ∀ e ∈ es.find? (name.Matches ·), ∃ e' ∈ es, e'.name = name.chars ∧ e'.inode = e.inode

theorem eq_of_name_eq {e' : DirEntry} (hnodup : (es.map DirEntry.name).Nodup) (he : e ∈ es) (he' : e' ∈ es)
    (h : e.name = e'.name) : e = e' := List.inj_on_of_nodup_map hnodup he he' h

/-- A lookup by name is exact exactly if no entry with a proper prefix of the name, or with more behind
it, comes before the entry with the name, unless it is a link to the same inode. -/
theorem findsExactly_iff (h : Block s.disk b es) (hsize : s.size ≤ 2 ^ 31)
    (hmapped : b * EXT2_BLOCK_SIZE + EXT2_BLOCK_SIZE ≤ s.size)
    (hnodup : (es.map DirEntry.name).Nodup) (hinode : ∀ e ∈ es, e.inode ≠ 0) :
    FindsExactly s b es name ↔ FirstIsExact name es := by
  have hrun : (checkBlockForDir b name).run s = .done (firstMatch name es) s :=
    run_checkBlockForDir h hsize hmapped
  have hdone : ∀ k, (checkBlockForDir b name).run s = .done k s ↔ firstMatch name es = k := by
    intro k
    rw [hrun]
    exact ⟨fun h => (Outcome.done.inj h).1, fun h => by rw [h]⟩
  rw [FindsExactly, hdone]
  cases hfind : es.find? (name.Matches ·) with
  | none =>
    have hno : ∀ e ∈ es, e.name ≠ name.chars := by
      intro e he heq
      have hmatch := List.find?_eq_none.mp hfind e he
      exact hmatch (by simpa using Name.matches_of_eq heq)
    refine iff_of_true ⟨fun e he heq => absurd heq (hno e he), ?_⟩ ?_
    · exact iff_of_true (firstMatch_of_none hfind) hno
    · intro e he
      rw [hfind] at he
      cases he
  | some e =>
    have he := List.mem_of_find?_eq_some hfind
    have hfirst := firstMatch_of_some hfind
    constructor
    · rintro ⟨hfound, hzero⟩ e' he'
      rw [hfind] at he'
      obtain rfl : e = e' := Option.some.inj he'
      have hsome : ¬∀ e ∈ es, e.name ≠ name.chars := fun hno => hinode e he (hfirst ▸ hzero.mpr hno)
      push Not at hsome
      obtain ⟨e₁, he₁, heq⟩ := hsome
      exact ⟨e₁, he₁, heq, ((hdone _).mp (hfound e₁ he₁ heq)).symm.trans hfirst⟩
    · intro hexact
      obtain ⟨e', he', hname, hsame⟩ := hexact e hfind
      refine ⟨fun e₁ he₁ heq => ?_, iff_of_false ?_ ?_⟩
      · obtain rfl := eq_of_name_eq hnodup he₁ he' (heq.trans hname.symm)
        rw [hdone, hfirst, hsame]
      · rw [hfirst]
        exact hinode e he
      · exact fun hno => hno e' he' hname

/-- The entries of the root directory of the empty disk. -/
def rootEntries : List DirEntry := [⟨2, 12, 1, EXT2_FT_DIR, [0x2E]⟩, ⟨2, 12, 2, EXT2_FT_DIR, [0x2E, 0x2E]⟩,
  ⟨11, 1000, 10, EXT2_FT_DIR, lostFound⟩]

def Name.lostFound : Name := { chars := Ext2.lostFound, noNul := by decide }

/-- A name that begins with a dot. -/
def Name.hidden : Name := { chars := [0x2E, 0x61], noNul := by decide }

theorem findsExactly_lostFound : FindsExactly .empty 9 rootEntries .lostFound :=
  (findsExactly_iff (List.forall₂_cons.mp listing_root).1 (by decide) (by decide) (by decide) (by decide)).mpr
    fun e he => ⟨e, by cases he; decide, by cases he; rfl, rfl⟩

/-- A name with a dot before it is taken for the dot. -/
theorem not_findsExactly_hidden : Block emptyDisk 9 rootEntries ∧ ¬FindsExactly .empty 9 rootEntries .hidden := by
  have hblock : Block emptyDisk 9 rootEntries := (List.forall₂_cons.mp listing_root).1
  refine ⟨hblock, fun h => ?_⟩
  have hrun : (checkBlockForDir 9 .hidden).run .empty = .done 2 .empty :=
    run_checkBlockForDir (s := .empty) hblock (by decide) (by decide)
  have hzero := h.2.mpr (by decide)
  rw [hrun] at hzero
  cases hzero

/-! ## Looking up a path -/

/-- A directory with direct blocks only, in order: its entries have distinct names, and none of them is
unused. -/
structure Directory (s : State) (n : Nat) (es : List DirEntry) : Prop where
  chains : ∃ blocks ess, DirectDir s n blocks ∧ Listing s.disk blocks ess ∧ es = ess.flatten
  isDir : IS_DIR (inodeOf s n).iMode = true
  nodup : (es.map DirEntry.name).Nodup
  inode_ne : ∀ e ∈ es, e.inode ≠ 0

/-- From a directory, a path leads to an inode: each component is the name of an entry of the directory
that the components before it lead to. -/
inductive Leads (s : State) : Nat → List Name → Nat → Prop where
  | nil (n : Nat) : Leads s n [] n
  | cons {n k : Nat} {es : List DirEntry} {e : DirEntry} {c : Name} {path : List Name}
      (hdir : Directory s n es) (he : e ∈ es) (hname : e.name = c.chars) (hrest : Leads s e.inode path k) :
      Leads s n (c :: path) k

theorem Directory.unique {es' : List DirEntry} (h : Directory s n es) (h' : Directory s n es') : es' = es := by
  obtain ⟨blocks, ess, hdir, hlist, rfl⟩ := h.chains
  obtain ⟨blocks', ess', hdir', hlist', rfl⟩ := h'.chains
  obtain rfl : blocks' = blocks := hdir'.blocks_eq.symm.trans hdir.blocks_eq
  rw [hlist.unique hlist']

theorem Leads.unique {k' : Nat} (h : Leads s n path k) (h' : Leads s n path k') : k' = k := by
  induction h with
  | nil n =>
    cases h'
    rfl
  | cons hdir he hname _ ih =>
    cases h' with
    | cons hdir' he' hname' hrest' =>
      obtain rfl := hdir.unique hdir'
      obtain rfl := eq_of_name_eq hdir.nodup he' he (hname'.trans hname.symm)
      exact ih hrest'

/-- The first component of a path is the name of an entry that matches. -/
theorem Leads.exists_match (hdir : Directory s n es) (h : Leads s n (c :: path) k) :
    ∃ e ∈ es, c.Matches e := by
  cases h with
  | cons hdir' he hname _ =>
    obtain rfl := hdir.unique hdir'
    exact ⟨_, he, Name.matches_of_eq hname⟩

/-- The loop over the blocks of a directory goes on until one of them has an entry that matches. -/
theorem loop_lookupRound (pre : List Nat) {i : Inode} {fuel : Nat}
    (hblocks : i.iBlock = pre ++ blocks ++ List.replicate (15 - (pre ++ blocks).length) 0)
    (hlen : (pre ++ blocks).length ≤ INDIRECT_BLK_INDEX) (hpos : ∀ b ∈ blocks, b ≠ 0)
    (hmapped : ∀ b ∈ blocks, b * EXT2_BLOCK_SIZE + EXT2_BLOCK_SIZE ≤ s.size) (hsize : s.size ≤ 2 ^ 31)
    (hlist : Listing s.disk blocks ess) (hinode : ∀ e ∈ ess.flatten, e.inode ≠ 0)
    (hfuel : blocks.length + 1 < fuel) :
    (loop .diverges (lookupRound i c) fuel (0, pre.length)).run s = .done (firstMatch c ess.flatten) s := by
  have h11 : INDIRECT_BLK_INDEX = 11 := rfl
  rw [List.length_append] at hlen
  obtain ⟨fuel, rfl⟩ := Nat.exists_eq_succ_of_ne_zero (Nat.ne_zero_of_lt hfuel)
  induction hlist generalizing pre fuel with
  | nil =>
    have hzero : iBlockAt i pre.length = pure 0 := by
      have hget : i.iBlock[pre.length]? = some 0 := by
        rw [hblocks, List.append_nil, List.getElem?_append_right le_rfl, Nat.sub_self,
          List.getElem?_replicate, if_pos (by rw [List.length_nil] at hlen; omega)]
      rw [iBlockAt, hget]
    refine loop_of_stop ?_
    rw [List.length_nil] at hlen
    rw [lookupRound, if_pos ⟨by omega, rfl⟩, hzero, Process.pure_bind, if_neg (by simp)]
    rfl
  | @cons b es blocks ess hblock hlist ih =>
    rw [List.length_cons] at hlen hfuel
    rw [List.flatten_cons] at hinode
    have hvalue : iBlockAt i pre.length = pure b := by
      have hget : i.iBlock[pre.length]? = some b := by
        rw [hblocks, List.append_assoc, List.getElem?_append_right le_rfl, Nat.sub_self, List.cons_append,
          List.getElem?_cons_zero]
      rw [iBlockAt, hget]
    have hbody : (lookupRound i c (0, pre.length)).run s =
        .done (.next (firstMatch c es, pre.length + 1)) s := by
      rw [lookupRound, if_pos ⟨by omega, rfl⟩, hvalue, Process.pure_bind,
        if_pos (hpos b List.mem_cons_self), if_neg (by omega),
        bind_done (run_checkBlockForDir hblock hsize (hmapped b List.mem_cons_self)), run_pure]
    obtain ⟨fuel, rfl⟩ := Nat.exists_eq_succ_of_ne_zero (n := fuel) (by omega)
    rw [loop_of_next hbody, List.flatten_cons,
      firstMatch_append fun e he => hinode e (List.mem_append_left _ he)]
    by_cases hzero : firstMatch c es = 0
    · rw [hzero, if_neg (by simp)]
      have hrun := ih (pre ++ [b]) (by rw [hblocks]; simp)
        (by rw [List.length_append, List.length_singleton]; omega)
        (fun b hb => hpos b (List.mem_cons_of_mem _ hb)) (fun b hb => hmapped b (List.mem_cons_of_mem _ hb))
        (fun e he => hinode e (List.mem_append_right _ he)) fuel (by omega)
      rwa [List.length_append, List.length_singleton] at hrun
    · rw [if_pos hzero]
      exact loop_of_stop (by rw [lookupRound, if_neg (by simp [hzero])]; rfl)

/-- `dir_entry_exists` looks up the first component, and no other. -/
theorem run_dirEntryExists (hdir : Directory s n es)
    (hstart : (if start ≠ 0 then start else EXT2_ROOT_INO) = n) :
    (dirEntryExists (c :: path) start).run s = .done (firstMatch c es) s := by
  obtain ⟨blocks, ess, hdirect, hlist, rfl⟩ := hdir.chains
  have hlen := hdirect.length_le
  have h11 : INDIRECT_BLK_INDEX = 11 := rfl
  have hloop : (loop .diverges (lookupRound (inodeOf s n) c) (INDIRECT_BLK_INDEX + 2) (0, 0)).run s =
      .done (firstMatch c ess.flatten) s :=
    loop_lookupRound [] hdirect.iBlock hlen (fun b hb => Nat.ne_zero_of_lt (hdirect.pos hb))
      hdirect.mapped hdirect.size hlist hdir.inode_ne (by omega)
  have hone : dirEntryExists (c :: path) start =
      resolve [c] 0 (if start ≠ 0 then start else EXT2_ROOT_INO) := rfl
  rw [hone, hstart, resolve, if_pos rfl, bind_done (run_indTableAt hdirect.num hdirect.table), bind_done hloop]
  by_cases hzero : firstMatch c ess.flatten = 0
  · rw [if_pos hzero, hzero, run_pure]
  · rw [if_neg hzero, resolve, run_pure]

/-- `dir_entry_exists` gives the inode that the path leads to, and 0 exactly if it leads nowhere. -/
def Follows (s : State) (path : List Name) (start : Nat) : Prop :=
  (∀ k, Leads s (if start ≠ 0 then start else EXT2_ROOT_INO) path k →
    (dirEntryExists path start).run s = .done k s) ∧
  ((dirEntryExists path start).run s = .done 0 s ↔
    ¬∃ k, Leads s (if start ≠ 0 then start else EXT2_ROOT_INO) path k)

/-- A path is resolved to its end exactly if no entry of the first directory matches its first component,
or the first one that does has the inode that the whole path leads to. -/
theorem follows_iff_leads (hdir : Directory s (if start ≠ 0 then start else EXT2_ROOT_INO) es) :
    Follows s (c :: path) start ↔ ∀ e ∈ es.find? (c.Matches ·),
      Leads s (if start ≠ 0 then start else EXT2_ROOT_INO) (c :: path) e.inode := by
  have hrun : (dirEntryExists (c :: path) start).run s = .done (firstMatch c es) s :=
    run_dirEntryExists hdir rfl
  have hdone : ∀ k, (dirEntryExists (c :: path) start).run s = .done k s ↔ firstMatch c es = k := by
    intro k
    rw [hrun]
    exact ⟨fun h => (Outcome.done.inj h).1, fun h => by rw [h]⟩
  simp only [Follows, hdone]
  cases hfind : es.find? (c.Matches ·) with
  | none =>
    have hno : ∀ k, ¬Leads s (if start ≠ 0 then start else EXT2_ROOT_INO) (c :: path) k := by
      intro k hk
      obtain ⟨e, he, hmatch⟩ := hk.exists_match hdir
      exact List.find?_eq_none.mp hfind e he (by simpa using hmatch)
    refine iff_of_true ⟨fun k hk => absurd hk (hno k), ?_⟩ fun e he => by cases he
    exact iff_of_true (firstMatch_of_none hfind) fun ⟨k, hk⟩ => hno k hk
  | some e =>
    have hne := hdir.inode_ne e (List.mem_of_find?_eq_some hfind)
    have hfirst := firstMatch_of_some hfind
    rw [hfirst]
    constructor
    · rintro ⟨hfound, hzero⟩ e' he'
      obtain rfl : e = e' := Option.some.inj he'
      have hsome := fun hno => hne (hzero.mpr hno)
      obtain ⟨k, hk⟩ := not_not.mp hsome
      rwa [hfound k hk]
    · intro hleads
      have hk := hleads e rfl
      exact ⟨fun k hk' => hk'.unique hk, iff_of_false hne fun hno => hno ⟨_, hk⟩⟩

theorem leads_nil : Leads s n [] k ↔ n = k := by
  constructor
  · intro h
    cases h
    rfl
  · rintro rfl
    exact .nil n

/-- A path leads on from the entry with the name of its first component. -/
theorem leads_cons (hdir : Directory s n es) :
    Leads s n (c :: path) k ↔ ∃ e ∈ es, e.name = c.chars ∧ Leads s e.inode path k := by
  constructor
  · intro h
    cases h with
    | cons hdir' he hname hrest =>
      obtain rfl := hdir.unique hdir'
      exact ⟨_, he, hname, hrest⟩
  · rintro ⟨e, he, hname, hrest⟩
    exact .cons hdir he hname hrest

/-- A path is resolved to its end exactly if no entry of the first directory matches its first component,
or one has it as its name and the rest of the path leads from that one to the inode of the first one that
matches. -/
theorem follows_iff (hdir : Directory s (if start ≠ 0 then start else EXT2_ROOT_INO) es) :
    Follows s (c :: path) start ↔ ∀ e ∈ es.find? (c.Matches ·),
      ∃ e' ∈ es, e'.name = c.chars ∧ Leads s e'.inode path e.inode := by
  rw [follows_iff_leads hdir]
  exact forall_congr' fun e => forall_congr' fun _ => leads_cons hdir

/-- For a single component, it is the exact name that counts. -/
theorem follows_single_iff (hdir : Directory s (if start ≠ 0 then start else EXT2_ROOT_INO) es) :
    Follows s [c] start ↔ FirstIsExact c es := by
  rw [follows_iff_leads hdir]
  refine forall_congr' fun e => forall_congr' fun _ => (leads_cons hdir).trans ?_
  exact exists_congr fun e' => and_congr_right fun _ => and_congr_right fun _ => leads_nil

/-! ### On the empty disk -/

theorem directory_root : Directory .empty 2 rootEntries where
  chains := ⟨[9], [rootEntries], directDir_root, listing_root, rfl⟩
  isDir := by decide
  nodup := by decide
  inode_ne := by decide

theorem directory_lostFound : Directory .empty 11 [⟨11, 12, 1, EXT2_FT_DIR, [0x2E]⟩,
    ⟨2, 1012, 2, EXT2_FT_DIR, [0x2E, 0x2E]⟩] where
  chains := ⟨[10], _, directDir_lostFound, listing_lostFound, rfl⟩
  isDir := by decide
  nodup := by decide
  inode_ne := by decide

/-- The name of the parent. -/
def Name.dotDot : Name := { chars := [0x2E, 0x2E], noNul := by decide }

theorem follows_lostFound : Follows .empty [.lostFound] 0 := by
  have hiff : Follows .empty [.lostFound] 0 ↔ _ := follows_iff directory_root
  exact hiff.mpr fun e he => ⟨e, by cases he; decide, by cases he; rfl, leads_nil.mpr rfl⟩

/-- The path `/lost+found/..` leads to the root directory, but gives `lost+found`. -/
theorem not_follows_dotDot : Leads .empty EXT2_ROOT_INO [.lostFound, .dotDot] 2 ∧
    ¬Follows .empty [.lostFound, .dotDot] 0 := by
  have hleads : Leads .empty EXT2_ROOT_INO [.lostFound, .dotDot] 2 :=
    .cons directory_root (e := ⟨11, 1000, 10, EXT2_FT_DIR, lostFound⟩) (by decide) rfl
      (.cons directory_lostFound (e := ⟨2, 1012, 2, EXT2_FT_DIR, [0x2E, 0x2E]⟩) (by decide) rfl (.nil _))
  refine ⟨hleads, fun h => ?_⟩
  have hrun : (dirEntryExists [.lostFound, .dotDot] 0).run .empty = .done 11 .empty :=
    run_dirEntryExists directory_root rfl
  have htwo := h.1 2 hleads
  rw [hrun] at htwo
  cases htwo

end Ext2

-- SUMMARY: When rm_dir_entry removes exactly an entry: never from a directory that shares no block with the inode after it.
import Mathlib.Data.List.TakeWhile
import OperatingSystems.Ext2.Lookups
import OperatingSystems.Ext2.Marks
import OperatingSystems.Library.Loops

/-!
# Unlinks

An entry is removed by adding its size to that of the entry before it. `rm_dir_entry` does so in the
blocks of the inode after the directory, and it goes on with the next block after it has found a name.
-/

namespace Ext2

open Library Library.Process Library.Records

variable {m : Memory} {s s' : State} {a b n p : Nat} {r e f : DirEntry} {es ps qs : List DirEntry}
  {ess : List (List DirEntry)} {blocks : List Nat} {name : Name} {inode : Inode}

/-! ## Merging two entries -/

/-- The bytes of a block with another size for the entry at an address. -/
def setRecLen (m : Memory) (a recLen : Nat) : Memory := Memory.store m (a + 4) (leBytes 2 recLen)

theorem setRecLen_apply {i recLen : Nat} (h : i < a + 4 ∨ a + 6 ≤ i) : setRecLen m a recLen i = m i := by
  rcases h with h | h
  · exact Memory.store_of_lt h
  · exact Memory.store_of_le (by rw [length_leBytes]; omega)

theorem decodeEntry_setRecLen {recLen : Nat} (h : recLen < 2 ^ 16) :
    decodeEntry (setRecLen m a recLen) a = { decodeEntry m a with recLen } := by
  have hword : ∀ w i, i + w ≤ 4 ∨ 6 ≤ i → word (setRecLen m a recLen) w (a + i) = word m w (a + i) :=
    fun w i hi => word_congr fun j h1 h2 => setRecLen_apply (by omega)
  have hrec : word (setRecLen m a recLen) 2 (a + 4) = recLen := by
    rw [setRecLen, word_store]
    exact Nat.mod_eq_of_lt h
  have hname : Memory.load (setRecLen m a recLen) (a + 8) (word m 1 (a + 6)) =
      Memory.load m (a + 8) (word m 1 (a + 6)) :=
    Memory.load_congr fun j h1 h2 => setRecLen_apply (by omega)
  simp only [decodeEntry, DirEntry.mk.injEq]
  refine ⟨hword 4 0 (by omega), hrec, hword 1 6 (by omega), hword 1 7 (by omega), ?_⟩
  rw [hword 1 6 (by omega), hname]

/-- An entry with the size of the next one added to its own. -/
def DirEntry.merge (r e : DirEntry) : DirEntry := { r with recLen := r.recLen + e.recLen }

theorem chain_merge (h : Chain entries m a (ps ++ r :: e :: qs)) (hlt : r.recLen + e.recLen < 2 ^ 16) :
    Chain entries (setRecLen m (a + sizes entries ps) (r.recLen + e.recLen)) a (ps ++ r.merge e :: qs) := by
  obtain ⟨hps, hread, hvalid, _, hvalid', hqs⟩ := Chain.append.mp h
  have hread : decodeEntry m (a + sizes entries ps) = r := hread
  have hvalid : 8 + r.nameLen ≤ r.recLen := hvalid
  rw [size_entries, size_entries] at hqs
  have hsize : entries.size (r.merge e) = r.recLen + e.recLen := rfl
  refine Chain.append.mpr ⟨hps.congr fun i h1 h2 => setRecLen_apply (.inl (by omega)), ?_, ?_, ?_⟩
  · change decodeEntry _ _ = _
    rw [decodeEntry_setRecLen hlt, hread]
    rfl
  · change 8 + r.nameLen ≤ r.recLen + e.recLen
    omega
  · rw [hsize, ← Nat.add_assoc]
    exact hqs.congr fun i h1 h2 => setRecLen_apply (.inr (by omega))

theorem block_merge (h : Block m b (ps ++ r :: e :: qs)) :
    Block (setRecLen m (b * EXT2_BLOCK_SIZE + sizes entries ps) (r.recLen + e.recLen)) b
      (ps ++ r.merge e :: qs) := by
  have hsizes := h.2
  have h1024 : EXT2_BLOCK_SIZE = 1024 := rfl
  have hsize : entries.size (r.merge e) = r.recLen + e.recLen := rfl
  rw [sizes_append, sizes_cons, sizes_cons, size_entries, size_entries] at hsizes
  refine ⟨chain_merge h.1 (by omega), ?_⟩
  rw [sizes_append, sizes_cons, hsize]
  omega

/-! ## The search in a block -/

theorem run_rmSearchRound_match {q : EntrySearch} (hmem : q.memToCheck > 0)
    (hread : decodeEntry s.disk q.currDirEnt = r) (hin : q.currDirEnt + 8 + r.nameLen ≤ s.size)
    (hmatch : name.Matches r) : (rmSearchRound name q).run s = .done (.stop (true, q)) s := by
  have hnameLen : word s.disk 1 (q.currDirEnt + 6) = r.nameLen := congrArg DirEntry.nameLen hread
  have hname : Memory.load s.disk (q.currDirEnt + 8) r.nameLen = r.name := by
    rw [← hnameLen]
    exact congrArg DirEntry.name hread
  rw [rmSearchRound, if_pos hmem, bind_done (run_loadWord (by omega)), hnameLen,
    bind_done (run_strncmpEq (by omega)), hname, strncmpList_iff.mpr hmatch, if_pos rfl, run_pure]

theorem run_rmSearchRound_next {q : EntrySearch} (hmem : q.memToCheck > 0)
    (hread : decodeEntry s.disk q.currDirEnt = r) (hin : q.currDirEnt + 8 + r.nameLen ≤ s.size)
    (hread' : decodeEntry s.disk (q.currDirEnt + r.recLen) = f) (hin' : q.currDirEnt + r.recLen + 8 ≤ s.size)
    (hmatch : ¬name.Matches r) :
    (rmSearchRound name q).run s = .done (.next
      { memToCheck := q.memToCheck - f.recLen, prevDirEnt := some q.currDirEnt,
        currDirEnt := q.currDirEnt + r.recLen }) s := by
  have hnameLen : word s.disk 1 (q.currDirEnt + 6) = r.nameLen := congrArg DirEntry.nameLen hread
  have hrecLen : word s.disk 2 (q.currDirEnt + 4) = r.recLen := congrArg DirEntry.recLen hread
  have hrecLen' : word s.disk 2 (q.currDirEnt + r.recLen + 4) = f.recLen := congrArg DirEntry.recLen hread'
  have hname : Memory.load s.disk (q.currDirEnt + 8) r.nameLen = r.name := by
    rw [← hnameLen]
    exact congrArg DirEntry.name hread
  have heq : ¬strncmpList name.chars r.name = true := fun h => hmatch (strncmpList_iff.mp h)
  rw [rmSearchRound, if_pos hmem, bind_done (run_loadWord (by omega)), hnameLen,
    bind_done (run_strncmpEq (by omega)), hname, if_neg heq, bind_done (run_loadWord (by omega)), hrecLen,
    bind_done (run_loadWord (by omega)), hrecLen', run_pure]

/-- The search at an entry, with those behind it in the block. `c` is the size of the first entry, which
is never subtracted. -/
def searchAt (prev : Option Nat) (p c : Nat) (qs : List DirEntry) : EntrySearch :=
  { memToCheck := (sizes entries qs : Int) + c, prevDirEnt := prev, currDirEnt := p }

/-- The entry before the one that follows some entries. -/
def prevOf (prev : Option Nat) (p : Nat) (ps : List DirEntry) : Option Nat :=
  if ps = [] then prev else some (p + sizes entries ps.dropLast)

theorem prevOf_cons {prev : Option Nat} :
    prevOf (some p) (p + entries.size r) ps = prevOf prev p (r :: ps) := by
  cases ps with
  | nil => simp [prevOf]
  | cons r' ps =>
    have hlast : (r :: r' :: ps).dropLast = r :: (r' :: ps).dropLast := rfl
    rw [prevOf, prevOf, if_neg (by simp), if_neg (by simp), hlast, sizes_cons, Nat.add_assoc]

/-- The search ends at the first entry that matches. -/
theorem loop_rmSearchRound (prev : Option Nat) {c fuel : Nat} (h : Chain entries s.disk p (ps ++ e :: qs))
    (hsize : p + sizes entries (ps ++ e :: qs) ≤ s.size) (hno : ∀ f ∈ ps, ¬name.Matches f)
    (hmatch : name.Matches e) (hc : 0 < c) (hfuel : ps.length < fuel) :
    (loop .diverges (rmSearchRound name) fuel (searchAt prev p c (ps ++ e :: qs).tail)).run s =
      .done (true, searchAt (prevOf prev p ps) (p + sizes entries ps) c qs) s := by
  obtain ⟨fuel, rfl⟩ := Nat.exists_eq_succ_of_ne_zero (Nat.ne_zero_of_lt hfuel)
  induction ps generalizing p prev fuel with
  | nil =>
    obtain ⟨hread, hvalid, _⟩ := h
    have hvalid : 8 + e.nameLen ≤ e.recLen := hvalid
    rw [List.nil_append, sizes_cons, size_entries] at hsize
    refine loop_of_stop (run_rmSearchRound_match ?_ hread ?_ hmatch)
    · simp only [searchAt]
      omega
    · simp only [searchAt]
      omega
  | cons r ps ih =>
    obtain ⟨hread, hvalid, hrest⟩ := h
    have hvalid : 8 + r.nameLen ≤ r.recLen := hvalid
    have hrest : Chain entries s.disk (p + r.recLen) (ps ++ e :: qs) := hrest
    rw [List.cons_append, sizes_cons, size_entries] at hsize
    obtain ⟨f, rest, hcons⟩ := List.exists_cons_of_ne_nil (show ps ++ e :: qs ≠ [] by simp)
    have hnext : (rmSearchRound name (searchAt prev p c (ps ++ e :: qs))).run s =
        .done (.next (searchAt (some p) (p + r.recLen) c (ps ++ e :: qs).tail)) s := by
      rw [hcons] at hrest hsize ⊢
      obtain ⟨hread', hvalid', _⟩ := hrest
      have hvalid' : 8 + f.nameLen ≤ f.recLen := hvalid'
      rw [sizes_cons, size_entries] at hsize
      have hround := run_rmSearchRound_next (s := s) (q := searchAt prev p c (f :: rest)) (r := r) (f := f)
        (by simp only [searchAt]; omega) hread (by simp only [searchAt]; omega) hread'
        (by simp only [searchAt]; omega) (hno r List.mem_cons_self)
      rw [hround]
      simp only [searchAt, sizes_cons, size_entries, List.tail_cons]
      congr 3
      push_cast
      omega
    rw [List.length_cons] at hfuel
    obtain ⟨fuel, rfl⟩ := Nat.exists_eq_succ_of_ne_zero (n := fuel) (by omega)
    rw [List.cons_append, List.tail_cons, loop_of_next hnext,
      ih (some p) hrest (by omega) (fun f hf => hno f (List.mem_cons_of_mem _ hf)) fuel (by omega)]
    have hprev := @prevOf_cons p r ps prev
    rw [size_entries] at hprev
    rw [hprev, sizes_cons, size_entries, Nat.add_assoc]

/-- The entries that a search in a block looks at lie in the block, if one of them matches. -/
theorem rounds_rmSearchRound {prev : Option Nat} {c : Nat} {q : EntrySearch} (h : Chain entries s.disk p es)
    (hsize : p + sizes entries es ≤ s.size) (hmatch : ∃ e ∈ es, name.Matches e) (hc : 0 < c)
    (hrounds : Rounds (rmSearchRound name) (searchAt prev p c es.tail) s q s') :
    s' = s ∧ ∃ ps r qs, es = ps ++ r :: qs ∧ q.currDirEnt = p + sizes entries ps ∧
      q.memToCheck = (sizes entries qs : Int) + c ∧ ∀ f ∈ ps, ¬name.Matches f := by
  refine hrounds.invariant (I := fun q s' => s' = s ∧ ∃ ps r qs, es = ps ++ r :: qs ∧
    q.currDirEnt = p + sizes entries ps ∧ q.memToCheck = (sizes entries qs : Int) + c ∧
      ∀ f ∈ ps, ¬name.Matches f) ?_ ?_
  · obtain ⟨e, he, _⟩ := hmatch
    obtain ⟨r, qs, rfl⟩ := List.exists_cons_of_ne_nil (List.ne_nil_of_mem he)
    exact ⟨rfl, [], r, qs, rfl, rfl, rfl, by simp⟩
  · rintro q₁ _ q₂ s₂ ⟨rfl, ps, r, qs, rfl, hcurr, hmem, hno⟩ hround
    obtain ⟨_, hread, hvalid, hqs⟩ := Chain.append.mp h
    have hvalid : 8 + r.nameLen ≤ r.recLen := hvalid
    rw [sizes_append, sizes_cons, size_entries] at hsize
    rw [size_entries] at hqs
    rw [← hcurr] at hread
    by_cases hr : name.Matches r
    · rw [run_rmSearchRound_match (by omega) hread (by omega) hr] at hround
      cases hround
    · -- The entry that matches is behind this one.
      obtain ⟨e, he, he'⟩ := hmatch
      have hqs' : qs ≠ [] := by
        rintro rfl
        cases List.mem_append.mp he with
        | inl hin => exact hno e hin he'
        | inr hin => exact hr (List.mem_singleton.mp hin ▸ he')
      obtain ⟨f, qs, rfl⟩ := List.exists_cons_of_ne_nil hqs'
      obtain ⟨hread', hvalid', _⟩ := hqs
      have hvalid' : 8 + f.nameLen ≤ f.recLen := hvalid'
      rw [sizes_cons, size_entries] at hsize hmem
      rw [← hcurr] at hread'
      rw [run_rmSearchRound_next (by omega) hread (by omega) hread' (by omega) hr] at hround
      cases hround
      refine ⟨rfl, ps ++ [r], f, qs, by simp, ?_, ?_, ?_⟩
      · simp only [sizes_append, sizes_cons, sizes_nil, size_entries]
        omega
      · simp only
        omega
      · intro f' hf'
        cases List.mem_append.mp hf' with
        | inl hin => exact hno f' hin
        | inr hin => exact List.mem_singleton.mp hin ▸ hr

/-! ## The search in a directory -/

/-- The search at a block of the inode. -/
def searchFrom (inode : Inode) (found : Bool) (j : Nat) (prev : Option Nat) (curr : Nat) : DirSearch :=
  { found, iBlockIndex := j, blockNum := inode.iBlock.getD j 0, prevDirEnt := prev, currDirEnt := curr }

/-- The search in the block that a search in a directory has come to. -/
def DirSearch.inBlock (d : DirSearch) : EntrySearch :=
  { memToCheck := EXT2_BLOCK_SIZE, prevDirEnt := d.prevDirEnt, currDirEnt := blockAddrU d.blockNum }

/-- The blocks of an inode are chains in the mapping, each with an entry that matches the name. -/
structure Searched (s : State) (inode : Inode) (name : Name) (xs : List Nat) (xss : List (List DirEntry)) :
    Prop where
  iBlock : ∃ rest, inode.iBlock = xs ++ 0 :: rest
  pos : ∀ x ∈ xs, x ≠ 0
  mapped : ∀ x ∈ xs, x * EXT2_BLOCK_SIZE + EXT2_BLOCK_SIZE ≤ s.size
  listing : Listing s.disk xs xss
  stops : ∀ es ∈ xss, ∃ e ∈ es, name.Matches e

/-- The entries before the first one that matches. -/
def before (name : Name) (es : List DirEntry) : List DirEntry := es.takeWhile fun e => !decide (name.Matches e)

theorem before_split (h : ∃ e ∈ es, name.Matches e) :
    ∃ e qs, es = before name es ++ e :: qs ∧ name.Matches e ∧ ∀ f ∈ before name es, ¬name.Matches f := by
  have hbefore : ∀ f ∈ before name es, ¬name.Matches f := fun f hf => by simpa using List.mem_takeWhile_imp hf
  have hsplit : before name es ++ es.dropWhile (fun e => !decide (name.Matches e)) = es :=
    List.takeWhile_append_dropWhile
  cases hdrop : es.dropWhile fun e => !decide (name.Matches e) with
  | nil =>
    rw [hdrop, List.append_nil] at hsplit
    obtain ⟨e, he, hmatch⟩ := h
    rw [← hsplit] at he
    exact absurd hmatch (hbefore e he)
  | cons e qs =>
    rw [hdrop] at hsplit
    refine ⟨e, qs, hsplit.symm, ?_, hbefore⟩
    have hhead := List.head_dropWhile_not (fun e => !decide (name.Matches e)) (l := es) (by simp [hdrop])
    simpa [hdrop] using hhead

theorem before_eq (hno : ∀ f ∈ ps, ¬name.Matches f) (h : name.Matches e) : before name (ps ++ e :: qs) = ps := by
  rw [before, List.takeWhile_append_of_pos (by simpa using hno), List.takeWhile_cons_of_neg (by simpa using h),
    List.append_nil]

/-- Where the search stops in the last of some blocks, and the entry before that. -/
def searchEnd (name : Name) : Option Nat → Nat → List (Nat × List DirEntry) → Option Nat × Nat
  | prev, curr, [] => (prev, curr)
  | prev, _, (x, es) :: rest =>
    searchEnd name (prevOf prev (x * EXT2_BLOCK_SIZE) (before name es))
      (x * EXT2_BLOCK_SIZE + sizes entries (before name es)) rest

theorem searchEnd_concat {prev : Option Nat} {curr x : Nat} {l : List (Nat × List DirEntry)} :
    searchEnd name prev curr (l ++ [(x, es)]) =
      (prevOf (searchEnd name prev curr l).1 (x * EXT2_BLOCK_SIZE) (before name es),
        x * EXT2_BLOCK_SIZE + sizes entries (before name es)) := by
  induction l generalizing prev curr with
  | nil => rfl
  | cons y l ih => exact ih

theorem inBlock_eq {d : DirSearch} {x : Nat} (hsize : s.size ≤ 2 ^ 32) (hx : d.blockNum = x)
    (hmapped : x * EXT2_BLOCK_SIZE + EXT2_BLOCK_SIZE ≤ s.size) (hblock : Block s.disk x es) :
    ∃ c, 0 < c ∧ d.inBlock = searchAt d.prevDirEnt (x * EXT2_BLOCK_SIZE) c es.tail := by
  have h1024 : EXT2_BLOCK_SIZE = 1024 := rfl
  obtain ⟨f, rest, rfl⟩ := List.exists_cons_of_ne_nil hblock.ne_nil
  have hf : 8 + f.nameLen ≤ f.recLen := hblock.1.valid f List.mem_cons_self
  have haddr := @blockAddrU_of_lt x (by omega)
  have hsizes := hblock.2
  rw [sizes_cons, size_entries] at hsizes
  refine ⟨f.recLen, by omega, ?_⟩
  rw [DirSearch.inBlock, searchAt, hx, haddr, List.tail_cons, ← hsizes]
  congr 1
  push_cast
  omega

/-- A round of the search in a directory goes to the next block. -/
theorem run_dirSearchRound {d : DirSearch} {x : Nat} (hsize : s.size ≤ 2 ^ 32) (hx : d.blockNum = x)
    (hx0 : x ≠ 0) (hmapped : x * EXT2_BLOCK_SIZE + EXT2_BLOCK_SIZE ≤ s.size) (hblock : Block s.disk x es)
    (hmatch : ∃ e ∈ es, name.Matches e) (hlen : d.iBlockIndex + 1 < inode.iBlock.length) :
    (dirSearchRound inode (rmSearchRound name) d).run s =
      .done (.next (searchFrom inode true (d.iBlockIndex + 1)
        (prevOf d.prevDirEnt (x * EXT2_BLOCK_SIZE) (before name es))
        (x * EXT2_BLOCK_SIZE + sizes entries (before name es)))) s := by
  have h1024 : EXT2_BLOCK_SIZE = 1024 := rfl
  obtain ⟨e, qs, hes, he, hno⟩ := before_split hmatch
  obtain ⟨c, hc, hstart⟩ := inBlock_eq hsize hx hmapped hblock
  have hloop := @loop_rmSearchRound s (x * EXT2_BLOCK_SIZE) e (before name es) qs name d.prevDirEnt c chainRounds
    (by rw [← hes]; exact hblock.1) (by rw [← hes, hblock.2]; exact hmapped) hno he hc ?_
  · rw [← hes] at hloop
    have hget := iBlockAt_of_lt hlen
    rw [← hstart] at hloop
    rw [dirSearchRound, if_pos (.inl (by rwa [hx]))]
    refine (bind_done hloop).trans ?_
    simp only [hget, Process.pure_bind, run_pure, Bool.or_true]
    rfl
  · have hlen := hblock.1.length_le_sizes
    rw [hblock.2, hes, List.length_append] at hlen
    rw [chainRounds]
    omega

/-- The search in a directory goes over all its blocks, also once it has found the name. -/
theorem loop_dirSearchRound {xs ys rest : List Nat} {xss : List (List DirEntry)} {found : Bool}
    {prev : Option Nat} {curr fuel : Nat} (hsize : s.size ≤ 2 ^ 32) (hiBlock : inode.iBlock = ys ++ xs ++ 0 :: rest)
    (hpos : ∀ x ∈ xs, x ≠ 0) (hmapped : ∀ x ∈ xs, x * EXT2_BLOCK_SIZE + EXT2_BLOCK_SIZE ≤ s.size)
    (hlist : Listing s.disk xs xss) (hstops : ∀ es ∈ xss, ∃ e ∈ es, name.Matches e)
    (hfound : xs = [] → found = true) (hfuel : xs.length < fuel) :
    (loop .diverges (dirSearchRound inode (rmSearchRound name)) fuel
        (searchFrom inode found ys.length prev curr)).run s = .done (searchEnd name prev curr (xs.zip xss)) s := by
  obtain ⟨fuel, rfl⟩ := Nat.exists_eq_succ_of_ne_zero (Nat.ne_zero_of_lt hfuel)
  induction hlist generalizing ys found prev curr fuel with
  | nil =>
    have hzero : (searchFrom inode found ys.length prev curr).blockNum = 0 := by simp [searchFrom, hiBlock]
    have hfound' : (searchFrom inode found ys.length prev curr).found = true := hfound rfl
    refine loop_of_stop ?_
    rw [dirSearchRound, if_neg (by simp [hzero, hfound'])]
    rfl
  | @cons x es xs xss hblock hlist ih =>
    have hx : (searchFrom inode found ys.length prev curr).blockNum = x := by simp [searchFrom, hiBlock]
    have hlen : (searchFrom inode found ys.length prev curr).iBlockIndex + 1 < inode.iBlock.length := by
      simp [searchFrom, hiBlock]
    have hround := run_dirSearchRound hsize hx (hpos x List.mem_cons_self) (hmapped x List.mem_cons_self) hblock
      (hstops es List.mem_cons_self) hlen
    rw [List.length_cons] at hfuel
    obtain ⟨fuel, rfl⟩ := Nat.exists_eq_succ_of_ne_zero (n := fuel) (by omega)
    have hrun := @ih (ys ++ [x]) true (prevOf prev (x * EXT2_BLOCK_SIZE) (before name es))
      (x * EXT2_BLOCK_SIZE + sizes entries (before name es)) (by rw [hiBlock]; simp)
      (fun y hy => hpos y (List.mem_cons_of_mem _ hy)) (fun y hy => hmapped y (List.mem_cons_of_mem _ hy))
      (fun es hes => hstops es (List.mem_cons_of_mem _ hes)) (fun _ => rfl) fuel (by omega)
    rw [List.length_append, List.length_singleton] at hrun
    rw [loop_of_next hround]
    exact hrun

/-- The search in a directory looks at entries of its blocks only. -/
def LooksOnly (s : State) (inode : Inode) (name : Name) (blocks : List Nat) : Prop :=
  ∀ d s₁, Rounds (dirSearchRound inode (rmSearchRound name)) (searchFrom inode false 0 none 0) s d s₁ →
    d.blockNum ≠ 0 ∨ d.found = false →
    ∀ q s₂, Rounds (rmSearchRound name) d.inBlock s₁ q s₂ → q.memToCheck > 0 →
      ∃ b ∈ blocks, b * EXT2_BLOCK_SIZE ≤ q.currDirEnt ∧ q.currDirEnt < b * EXT2_BLOCK_SIZE + EXT2_BLOCK_SIZE

/-- `rm_dir_entry` on a directory ends, having looked at entries of its blocks only, and afterwards the
blocks are chains again that list what they have listed, without an entry that has the name. -/
def Removes (s : State) (n : Nat) (name : Name) (blocks : List Nat) (ess : List (List DirEntry)) : Prop :=
  LooksOnly s (inodeOf s (n + 1)) name blocks ∧
    ∃ k s' ess' es₁ e es₂, (rmDirEntry n name).run s = .done k s' ∧ ess.flatten = es₁ ++ e :: es₂ ∧
      e.name = name.chars ∧ (inodeOf s' n).blocks = blocks ∧ Listing s'.disk blocks ess' ∧
      ess'.flatten.map DirEntry.item = (es₁ ++ es₂).map DirEntry.item

/-- The inode after the directory in the table has blocks of the directory, each of them with an entry
that matches the name, and in the last of them the first one that does has the name, and is not the first
entry. -/
structure Removable (s : State) (n : Nat) (name : Name) (blocks : List Nat) : Prop where
  table : s.indTable + inodeSize * (n + 1) ≤ s.size
  searched : ∃ xs xss x ps r e qs, Searched s (inodeOf s (n + 1)) name (xs ++ [x]) (xss ++ [ps ++ r :: e :: qs]) ∧
    (∀ y ∈ xs ++ [x], y ∈ blocks) ∧ (∀ f ∈ ps ++ [r], ¬name.Matches f) ∧ e.name = name.chars ∧
    s.indTable + inodeSize * (e.inode + 1) ≤ s.size

/-! ## When the entry is removed -/

/-- The entries of one of the blocks of a directory. -/
theorem Listing.at_block {ys zs : List Nat} (h : Listing m (ys ++ b :: zs) ess) :
    ∃ yss es zss, ess = yss ++ es :: zss ∧ Listing m ys yss ∧ Block m b es ∧ Listing m zs zss := by
  induction ys generalizing ess with
  | nil =>
    cases h with
    | cons hblock hlist => exact ⟨[], _, _, rfl, .nil, hblock, hlist⟩
  | cons y ys ih =>
    cases h with
    | cons hblock hlist =>
      obtain ⟨yss, es, zss, rfl, hys, hes, hzs⟩ := ih hlist
      exact ⟨_ :: yss, es, zss, rfl, .cons hblock hys, hes, hzs⟩

/-- The search in a directory is at one of its blocks, or behind the last one and has found the name. -/
theorem rounds_dirSearchRound {xs : List Nat} {xss : List (List DirEntry)} {d : DirSearch}
    (hsize : s.size ≤ 2 ^ 32) (h : Searched s inode name xs xss) (hne : xs ≠ [])
    (hrounds : Rounds (dirSearchRound inode (rmSearchRound name)) (searchFrom inode false 0 none 0) s d s') :
    s' = s ∧ ∃ ys zs, xs = ys ++ zs ∧ d.iBlockIndex = ys.length ∧ d.blockNum = inode.iBlock.getD ys.length 0 ∧
      (zs = [] → d.found = true) := by
  refine hrounds.invariant (I := fun d s' => s' = s ∧ ∃ ys zs, xs = ys ++ zs ∧ d.iBlockIndex = ys.length ∧
    d.blockNum = inode.iBlock.getD ys.length 0 ∧ (zs = [] → d.found = true)) ?_ ?_
  · exact ⟨rfl, [], xs, rfl, rfl, rfl, fun hnil => absurd hnil hne⟩
  · rintro d₁ _ d₂ s₂ ⟨rfl, ys, zs, rfl, hindex, hnum, hfound⟩ hround
    obtain ⟨rest, hiBlock⟩ := h.iBlock
    cases zs with
    | nil =>
      have hzero : d₁.blockNum = 0 := by simp [hnum, hiBlock]
      rw [dirSearchRound, if_neg (by simp [hzero, hfound])] at hround
      cases hround
    | cons x zs =>
      have hx : d₁.blockNum = x := by simp [hnum, hiBlock]
      have hin : x ∈ ys ++ x :: zs := by simp
      obtain ⟨yss, es, zss, rfl, _, hblock, _⟩ := h.listing.at_block
      have hlen : d₁.iBlockIndex + 1 < inode.iBlock.length := by simp [hindex, hiBlock]
      have hnext := run_dirSearchRound hsize hx (h.pos x hin) (h.mapped x hin) hblock (h.stops es (by simp)) hlen
      rw [hnext] at hround
      cases hround
      refine ⟨rfl, ys ++ [x], zs, by simp, ?_, ?_, fun _ => rfl⟩
      · rw [List.length_append, List.length_singleton, ← hindex]
        rfl
      · rw [List.length_append, List.length_singleton, ← hindex]
        rfl

theorem Searched.looksOnly {xs : List Nat} {xss : List (List DirEntry)} (hsize : s.size ≤ 2 ^ 32)
    (h : Searched s inode name xs xss) (hne : xs ≠ []) (hsub : ∀ x ∈ xs, x ∈ blocks) :
    LooksOnly s inode name blocks := by
  intro d s₁ hd hgoes q s₂ hq hmem
  obtain ⟨rfl, ys, zs, rfl, hindex, hnum, hfound⟩ := rounds_dirSearchRound hsize h hne hd
  obtain ⟨rest, hiBlock⟩ := h.iBlock
  cases zs with
  | nil =>
    have hzero : d.blockNum = 0 := by simp [hnum, hiBlock]
    simp [hzero, hfound] at hgoes
  | cons x zs =>
    have hx : d.blockNum = x := by simp [hnum, hiBlock]
    have hin : x ∈ ys ++ x :: zs := by simp
    obtain ⟨yss, es, zss, rfl, _, hblock, _⟩ := h.listing.at_block
    obtain ⟨c, hc, hstart⟩ := inBlock_eq hsize hx (h.mapped x hin) hblock
    rw [hstart] at hq
    have hmapped := h.mapped x hin
    obtain ⟨_, ps, r, qs, rfl, hcurr, _⟩ := rounds_rmSearchRound hblock.1 (by rw [hblock.2]; exact hmapped)
      (h.stops es (by simp)) hc hq
    have hsizes := hblock.2
    have hvalid : 8 + r.nameLen ≤ r.recLen := hblock.1.valid r (by simp)
    rw [sizes_append, sizes_cons, size_entries] at hsizes
    exact ⟨x, hsub x hin, by omega, by omega⟩

theorem Listing.last {xs : List Nat} (h : Listing m (xs ++ [b]) (ess ++ [es])) :
    xs.length = ess.length ∧ Block m b es := by
  obtain ⟨_, _, heq, hxs, hlast⟩ := Listing.concat.mp h
  obtain ⟨rfl, hes⟩ := List.append_inj' heq rfl
  cases hes
  exact ⟨hxs.length_eq, hlast⟩

/-- The state once the entry `e` is merged into the one behind the entries `ps`. -/
def merged (s : State) (x : Nat) (ps : List DirEntry) (r e : DirEntry) : State :=
  { s with disk := setRecLen s.disk (x * EXT2_BLOCK_SIZE + sizes entries ps) (r.recLen + e.recLen) }

/-- `rm_dir_entry` merges the entry that it has found in the last block, and then looks at the inode. -/
theorem run_rmDirEntry_merged {xs : List Nat} {xss : List (List DirEntry)} {x : Nat} (hsize : s.size ≤ 2 ^ 32)
    (htable : s.indTable + inodeSize * (n + 1) ≤ s.size)
    (h : Searched s (inodeOf s (n + 1)) name (xs ++ [x]) (xss ++ [ps ++ r :: e :: qs]))
    (hno : ∀ f ∈ ps ++ [r], ¬name.Matches f) (hmatch : name.Matches e) :
    (rmDirEntry n name).run s = (do
      let currentInode ← indTableAt e.inode
      if currentInode.iLinksCount = 1 then loadWord 4 (x * EXT2_BLOCK_SIZE + sizes entries ps + r.recLen)
      else pure 0 : Tool Nat).run (merged s x ps r e) := by
  obtain ⟨rest, hiBlock⟩ := h.iBlock
  have hfuel : (xs ++ [x]).length < 16 := by
    have hlen := @length_iBlock s (n + 1)
    rw [hiBlock] at hlen
    simp only [List.length_append, List.length_cons] at hlen ⊢
    omega
  obtain ⟨hlen, hblock⟩ := h.listing.last
  have hmapped := h.mapped x (by simp)
  have hbefore : before name (ps ++ r :: e :: qs) = ps ++ [r] := by
    have hsplit : ps ++ r :: e :: qs = (ps ++ [r]) ++ e :: qs := by simp
    rw [hsplit, before_eq hno hmatch]
  have hsearch : (dirSearch (inodeOf s (n + 1)) (rmSearchRound name)).run s =
      .done (some (x * EXT2_BLOCK_SIZE + sizes entries ps), x * EXT2_BLOCK_SIZE + sizes entries (ps ++ [r])) s := by
    have hloop := @loop_dirSearchRound s name _ (xs ++ [x]) [] rest (xss ++ [ps ++ r :: e :: qs]) false none 0 16
      hsize hiBlock h.pos h.mapped h.listing h.stops (by simp) hfuel
    rw [List.zip_append hlen, List.zip_cons_cons, List.zip_nil_right, searchEnd_concat, hbefore, prevOf,
      if_neg (by simp), List.dropLast_concat] at hloop
    exact hloop
  obtain ⟨_, hread, hvalid, hread', hvalid', _⟩ := Chain.append.mp hblock.1
  have hread : decodeEntry s.disk (x * EXT2_BLOCK_SIZE + sizes entries ps) = r := hread
  have hread' : decodeEntry s.disk (x * EXT2_BLOCK_SIZE + sizes entries ps + r.recLen) = e := hread'
  have hvalid : 8 + r.nameLen ≤ r.recLen := hvalid
  have hvalid' : 8 + e.nameLen ≤ e.recLen := hvalid'
  have hsizes := hblock.2
  have hcurr : x * EXT2_BLOCK_SIZE + sizes entries (ps ++ [r]) =
      x * EXT2_BLOCK_SIZE + sizes entries ps + r.recLen := by
    rw [sizes_append, sizes_cons, sizes_nil, size_entries]
    omega
  rw [sizes_append, sizes_cons, sizes_cons, size_entries, size_entries] at hsizes
  rw [hcurr] at hsearch
  have hrecLen : word s.disk 2 (x * EXT2_BLOCK_SIZE + sizes entries ps + 4) = r.recLen :=
    congrArg DirEntry.recLen hread
  have hrecLen' : word s.disk 2 (x * EXT2_BLOCK_SIZE + sizes entries ps + r.recLen + 4) = e.recLen :=
    congrArg DirEntry.recLen hread'
  have hinode' : word (merged s x ps r e).disk 4 (x * EXT2_BLOCK_SIZE + sizes entries ps + r.recLen) = e.inode := by
    rw [← hread']
    exact word_congr fun j h1 h2 => setRecLen_apply (.inr (by omega))
  have hload : (loadWord 4 (x * EXT2_BLOCK_SIZE + sizes entries ps + r.recLen)).run (merged s x ps r e) =
      .done e.inode (merged s x ps r e) := by
    rw [← hinode']
    exact run_loadWord (by change _ ≤ s.size; omega)
  have hstore : (storeWord 2 (x * EXT2_BLOCK_SIZE + sizes entries ps + 4) (r.recLen + e.recLen)).run s =
      .done () (merged s x ps r e) := run_storeWord (by omega)
  rw [rmDirEntry, bind_done (run_indTableAt_next htable), bind_done hsearch]
  dsimp only
  rw [bind_done (run_loadWord (by omega)), hrecLen, bind_done (run_loadWord (by omega)), hrecLen',
    bind_done hstore, bind_done hload]

theorem run_rmDirEntry {xs : List Nat} {xss : List (List DirEntry)} {x : Nat} (hsize : s.size ≤ 2 ^ 32)
    (htable : s.indTable + inodeSize * (n + 1) ≤ s.size)
    (h : Searched s (inodeOf s (n + 1)) name (xs ++ [x]) (xss ++ [ps ++ r :: e :: qs]))
    (hno : ∀ f ∈ ps ++ [r], ¬name.Matches f) (hmatch : name.Matches e)
    (hinode : s.indTable + inodeSize * (e.inode + 1) ≤ s.size) :
    ∃ k, (rmDirEntry n name).run s = .done k (merged s x ps r e) := by
  obtain ⟨_, hblock⟩ := h.listing.last
  have hmapped := h.mapped x (by simp)
  have hvalid : 8 + e.nameLen ≤ e.recLen := hblock.1.valid e (by simp)
  have hsizes := hblock.2
  rw [sizes_append, sizes_cons, sizes_cons, size_entries, size_entries] at hsizes
  rw [run_rmDirEntry_merged hsize htable h hno hmatch,
    bind_done (run_indTableAt_next (s := merged s x ps r e) hinode)]
  split
  · exact ⟨_, run_loadWord (by change _ ≤ s.size; omega)⟩
  · exact ⟨0, rfl⟩

/-- If the search can stay in the blocks of the directory and stops at the entry, the entry is removed. -/
theorem removes_of_removable (hdir : DirectDir s n blocks) (hlist : Listing s.disk blocks ess)
    (h : Removable s n name blocks) : Removes s n name blocks ess := by
  obtain ⟨htable, xs, xss, x, ps, r, e, qs, hsearched, hsub, hno, hname, hinode⟩ := h
  have hsize : s.size ≤ 2 ^ 32 := by
    have := hdir.size
    omega
  obtain ⟨k, hrun⟩ := run_rmDirEntry hsize htable hsearched hno (Name.matches_of_eq hname) hinode
  have hx : x ∈ blocks := hsub x (by simp)
  obtain ⟨ys, zs, rfl⟩ := List.append_of_mem hx
  obtain ⟨yss, es, zss, rfl, hys, hblock, hzs⟩ := hlist.at_block
  obtain rfl := hsearched.listing.last.2.unique hblock
  have hsizes := hblock.2
  have hvalid : 8 + r.nameLen ≤ r.recLen := hblock.1.valid r (by simp)
  rw [sizes_append, sizes_cons, size_entries] at hsizes
  -- Outside the block the disk stays as it was.
  have hkeep : ∀ i, i < x * EXT2_BLOCK_SIZE ∨ x * EXT2_BLOCK_SIZE + EXT2_BLOCK_SIZE ≤ i →
      (merged s x ps r e).disk i = s.disk i := fun i hi => setRecLen_apply (by omega)
  have hother : ∀ b, b ≠ x → ∀ i, b * EXT2_BLOCK_SIZE ≤ i → i < b * EXT2_BLOCK_SIZE + EXT2_BLOCK_SIZE →
      (merged s x ps r e).disk i = s.disk i := by
    exact fun b hb i h1 h2 => hkeep i (outside_of_ne hb h1 h2)
  obtain ⟨_, hxzs, hdisjoint⟩ := List.nodup_append.mp hdir.nodup
  have hxzs := (List.nodup_cons.mp hxzs).1
  refine ⟨hsearched.looksOnly hsize (by simp) hsub, k, merged s x ps r e, yss ++ (ps ++ r.merge e :: qs) :: zss,
    yss.flatten ++ ps ++ [r], e, qs ++ zss.flatten, hrun, by simp, hname, ?_, ?_, ?_⟩
  · have hinodeOf : inodeOf (merged s x ps r e) n = inodeOf s n := by
      have hbehind := hdir.behind x hx
      exact decodeInode_congr fun i h1 h2 => hkeep i (.inl (by
        change i < inodeAddr s n + inodeSize at h2
        omega))
    rw [hinodeOf, hdir.blocks_eq]
  · refine List.rel_append (hys.congr fun b hb => hother b ?_) (.cons (block_merge hblock)
      (hzs.congr fun b hb => hother b ?_))
    · rintro rfl
      exact hdisjoint b hb b List.mem_cons_self rfl
    · rintro rfl
      exact hxzs hb
  · simp [DirEntry.merge, DirEntry.item]

/-- To remove an entry, the search has to begin in a block of the directory. -/
theorem exists_block_of_removes (h : Removes s n name blocks ess) :
    ∃ b ∈ blocks, blockAddrU ((inodeOf s (n + 1)).iBlock.getD 0 0) = b * EXT2_BLOCK_SIZE := by
  obtain ⟨b, hb, hle, hlt⟩ := h.1 _ _ .refl (.inr rfl) _ _ .refl (show (EXT2_BLOCK_SIZE : Int) > 0 by decide)
  refine ⟨b, hb, ?_⟩
  have haddr : ∀ v, ∃ q, blockAddrU v = q * EXT2_BLOCK_SIZE := by
    intro v
    refine ⟨v % 2 ^ 22, ?_⟩
    rw [blockAddrU]
    unfold EXT2_BLOCK_SIZE
    omega
  obtain ⟨q, hq⟩ := haddr ((inodeOf s (n + 1)).iBlock.getD 0 0)
  have hcurr : (searchFrom (inodeOf s (n + 1)) false 0 none 0).inBlock.currDirEnt =
      blockAddrU ((inodeOf s (n + 1)).iBlock.getD 0 0) := rfl
  rw [hcurr, hq] at hle hlt
  rw [hq]
  unfold EXT2_BLOCK_SIZE at hle hlt ⊢
  omega

/-- An entry is removed if the search in the inode after the directory stays in the blocks of the
directory and stops at it; and it is not if that inode does not begin with a block of the directory. -/
theorem removes_iff (hdir : DirectDir s n blocks) (hlist : Listing s.disk blocks ess) :
    (Removable s n name blocks → Removes s n name blocks ess) ∧
      (Removes s n name blocks ess →
        ∃ b ∈ blocks, blockAddrU ((inodeOf s (n + 1)).iBlock.getD 0 0) = b * EXT2_BLOCK_SIZE) :=
  ⟨removes_of_removable hdir hlist, exists_block_of_removes⟩

/-! ## A file in the root directory -/

theorem listing_withFile : Listing fileDisk [9] [fileDiskEntries 9] := .cons (by decide +kernel) .nil

theorem directDir_withFile : DirectDir .withFile 2 [9] where
  num := by decide
  size := by decide
  table := by decide
  iBlock := by decide +kernel
  ne_nil := by decide
  length_le := by decide
  nodup := by decide
  behind := by decide
  mapped := by decide

/-- The search for the file goes to the inode after the root directory, which has no blocks. -/
theorem not_removes_withFile :
    DirectDir .withFile 2 [9] ∧ Listing fileDisk [9] [fileDiskEntries 9] ∧
      (∃ e ∈ fileDiskEntries 9, e.name = Name.letter.chars) ∧
      ¬Removes .withFile 2 .letter [9] [fileDiskEntries 9] := by
  refine ⟨directDir_withFile, listing_withFile, by decide, fun h => ?_⟩
  obtain ⟨b, hb, hzero⟩ := exists_block_of_removes h
  obtain rfl := List.mem_singleton.mp hb
  exact absurd hzero (by decide +kernel)

/-- The disk with a file where the inode after the root directory has the block of the root directory. -/
def State.shared : State :=
  { State.withFile with disk := Memory.store fileDisk (5 * EXT2_BLOCK_SIZE + 2 * inodeSize) (dirInodeBytes 2 9) }

theorem listing_shared : Listing State.shared.disk [9] [fileDiskEntries 9] := .cons (by decide +kernel) .nil

theorem directDir_shared : DirectDir .shared 2 [9] where
  num := by decide
  size := by decide
  table := by decide
  iBlock := by decide +kernel
  ne_nil := by decide
  length_le := by decide
  nodup := by decide
  behind := by decide
  mapped := by decide

theorem removes_shared : Removable .shared 2 .letter [9] ∧ Removes .shared 2 .letter [9] [fileDiskEntries 9] ∧
    ∃ b ∈ [9], blockAddrU ((inodeOf .shared 3).iBlock.getD 0 0) = b * EXT2_BLOCK_SIZE := by
  have hremovable : Removable .shared 2 .letter [9] := by
    refine ⟨by decide, [], [], 9, [⟨2, 12, 1, EXT2_FT_DIR, [0x2E]⟩, ⟨2, 12, 2, EXT2_FT_DIR, [0x2E, 0x2E]⟩],
      ⟨11, 20, 10, EXT2_FT_DIR, lostFound⟩, ⟨12, 980, 1, EXT2_FT_REG_FILE, Name.letter.chars⟩, [], ?_,
      by decide, by decide, rfl, by decide⟩
    exact ⟨⟨List.replicate 13 0, by decide +kernel⟩, by decide, by decide, listing_shared, by decide⟩
  have hiff := @removes_iff .shared 2 _ _ .letter directDir_shared listing_shared
  exact ⟨hremovable, hiff.1 hremovable, hiff.2 (hiff.1 hremovable)⟩

end Ext2

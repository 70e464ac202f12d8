-- SUMMARY: The directories of an image as lists of entries, and what lookups and new entries mean for them.
import OperatingSystems.Ext2.Tallies

/-!
# Volumes

Behind the bytes of an image there are directories with entries, and numbers that are free. An image
represents such a volume as long as its directories are in order, and stays one that does under every
change that keeps to free blocks, free numbers, or the end of a directory.
-/

namespace Ext2

open Library Library.Process Library.Records

variable {m m' : Memory} {s s' : State} {b : Bm} {d i n x N : Nat} {name : Name} {es : List DirEntry}
  {e : DirEntry}

/-! ## Volumes -/

/-- Directories with their entries, and the numbers that are free, the lowest first. -/
structure Volume where
  directories : List Nat
  entries : Nat → List DirEntry
  free : Bm → List Nat

/-- The entry of a name, with some room. -/
def newEntry (inode recLen fileType : Nat) (name : Name) : DirEntry :=
  { inode, recLen, nameLen := name.chars.length, fileType, name := name.chars }

/-- A new entry behind the others takes the room that the last one leaves. -/
def withEntry (es : List DirEntry) (inode fileType : Nat) (name : Name) : List DirEntry :=
  match es.getLast? with
  | none => []
  | some e => es.dropLast ++ [{ e with recLen := 12 }, newEntry inode (e.recLen - 12) fileType name]

namespace Volume

/-- Look up a path from a directory, or from the root. Only the first component counts. -/
def lookup (v : Volume) (path : List Name) (start : Nat) : Nat :=
  match path with
  | [] => EXT2_ROOT_INO
  | c :: _ => firstMatch c (v.entries (if start ≠ 0 then start else EXT2_ROOT_INO))

def addEntry (v : Volume) (d inode fileType : Nat) (name : Name) : Volume :=
  { v with entries := Function.update v.entries d (withEntry (v.entries d) inode fileType name) }

/-- Take the lowest free inode, and the lowest free block. -/
def take (v : Volume) : Volume := { v with free := fun b => (v.free b).tail }

variable {v : Volume} {fileType : Nat}

theorem entries_addEntry_self :
    (v.addEntry d n fileType name).entries d = withEntry (v.entries d) n fileType name := Function.update_self ..

theorem entries_addEntry_of_ne (h : i ≠ d) : (v.addEntry d n fileType name).entries i = v.entries i :=
  Function.update_of_ne h ..

end Volume

/-! ## What a new entry changes -/

theorem withEntry_concat {fileType : Nat} : withEntry (es ++ [e]) n fileType name =
    es ++ [{ e with recLen := 12 }, newEntry n (e.recLen - 12) fileType name] := by
  rw [withEntry, List.getLast?_concat, List.dropLast_concat]

theorem matches_newEntry {recLen fileType : Nat} {c : Name} :
    c.Matches (newEntry n recLen fileType name) ↔ name.chars <+: c.chars := by
  refine or_iff_left fun hnul => name.noNul ?_
  exact hnul.subset (List.mem_append_right _ List.mem_cons_self)

theorem firstMatch_singleton {c : Name} : firstMatch c [e] = if c.Matches e then e.inode else 0 := by
  by_cases hmatch : c.Matches e
  · rw [if_pos hmatch, firstMatch_of_some (List.find?_cons_of_pos (by simpa using hmatch))]
  · rw [if_neg hmatch, firstMatch_of_none]
    rw [List.find?_cons_of_neg (by simpa using hmatch), List.find?_nil]

theorem firstMatch_newEntry {recLen fileType : Nat} {c : Name} :
    firstMatch c [newEntry n recLen fileType name] = if name.chars <+: c.chars then n else 0 :=
  firstMatch_singleton.trans (if_congr matches_newEntry rfl rfl)

/-- A new entry is found where nothing has been found, by the names that it is a prefix of. -/
theorem firstMatch_withEntry {fileType : Nat} {c : Name} (hne : es ≠ []) (hinode : ∀ e ∈ es, e.inode ≠ 0) :
    firstMatch c (withEntry es n fileType name) =
      if firstMatch c es ≠ 0 then firstMatch c es else if name.chars <+: c.chars then n else 0 := by
  obtain ⟨es, e, rfl⟩ := (List.eq_nil_or_concat' es).resolve_left hne
  have hinit : ∀ e' ∈ es, e'.inode ≠ 0 := fun e' he' => hinode e' (List.mem_append_left _ he')
  have hlast : firstMatch c (es ++ [{ e with recLen := 12 }]) = firstMatch c (es ++ [e]) := by
    rw [firstMatch_append hinit, firstMatch_append hinit, firstMatch_singleton, firstMatch_singleton]
    rfl
  rw [withEntry_concat, List.append_cons, firstMatch_append, hlast, firstMatch_newEntry]
  intro e' he'
  rcases List.mem_append.mp he' with he' | he'
  · exact hinit e' he'
  · rw [List.mem_singleton.mp he']
    exact hinode e (by simp)

theorem inode_ne_withEntry {fileType : Nat} (hinode : ∀ e ∈ es, e.inode ≠ 0) (hn : n ≠ 0) :
    ∀ e ∈ withEntry es n fileType name, e.inode ≠ 0 := by
  rcases List.eq_nil_or_concat' es with rfl | ⟨es, e, rfl⟩
  · exact List.forall_mem_nil _
  · have hlast := hinode e (by simp)
    rw [withEntry_concat]
    simp only [List.mem_append, List.mem_cons, List.not_mem_nil, or_false]
    rintro e' (he' | rfl | rfl)
    · exact hinode e' (List.mem_append_left _ he')
    · exact hlast
    · exact hn

/-- Marking the lowest free number leaves the others. -/
theorem free_mark {sysBm : Nat} (h : (free m sysBm N).head? = some n) :
    free (flips m sysBm [n]) sysBm N = (free m sysBm N).tail := by
  obtain ⟨rest, hrest⟩ := List.head?_eq_some_iff.mp h
  have hnodup := free_nodup m sysBm N
  obtain ⟨⟨h1, _⟩, hclear⟩ := mem_free.mp (List.mem_of_head? h)
  have hfilter : free (flips m sysBm [n]) sysBm N = (free m sysBm N).filter fun k => k ≠ n := by
    rw [free, free, List.filter_filter]
    refine List.filter_congr fun k hk => ?_
    rw [used_flips (by simp) (by simpa using h1) (List.mem_range'_1.mp hk).1]
    by_cases hkn : k = n
    · subst hkn
      simp [hclear]
    · simp [hkn]
  rw [hrest] at hnodup
  rw [hfilter, hrest, List.filter_cons_of_neg (by simp), List.tail_cons, List.filter_eq_self]
  intro k hk
  have hne : k ≠ n := fun heq => (List.nodup_cons.mp hnodup).1 (heq ▸ hk)
  simpa using hne

/-- The free numbers depend on the bits of the bitmap. -/
theorem freeOn_congr (hbits : ∀ k, 1 ≤ k → k ≤ total m b → used m' (bitmapAt m b) k = usedOn m b k) :
    free m' (bitmapAt m b) (total m b) = freeOn m b := by
  refine List.filter_congr fun k hk => congrArg Bool.not (hbits k ?_ ?_)
  · exact (List.mem_range'_1.mp hk).1
  · have := (List.mem_range'_1.mp hk).2
    omega

/-! ## Images of volumes -/

/-- The directories of the image are those of the volume. They have direct blocks only, which are in use, no
block twice, and none of their entries is unused. The table has no directory for a free inode. -/
structure Represents (m : Memory) (v : Volume) : Prop where
  layout : Layout m
  directories : v.directories = Ext2.directories m
  root : EXT2_ROOT_INO ∈ v.directories
  free : ∀ b, v.free b = freeOn m b
  blank : ∀ n ∈ freeOn m .ind, IS_DIR (inodeOn m n).iMode = false
  ne_nil : ∀ d ∈ v.directories, (inodeOn m d).blocks ≠ []
  direct : ∀ d ∈ v.directories, (inodeOn m d).iBlock =
    (inodeOn m d).blocks ++ List.replicate (15 - (inodeOn m d).blocks.length) 0
  blocksUsed : ∀ d ∈ v.directories, ∀ blk ∈ (inodeOn m d).blocks,
    Behind m blk ∧ blk < total m .blk ∧ usedOn m .blk blk = true
  blocksOnce : (v.directories.flatMap fun d => (inodeOn m d).blocks).Nodup
  listing : ∀ d ∈ v.directories, ∃ ess, Listing m (inodeOn m d).blocks ess ∧ v.entries d = ess.flatten
  inode_ne : ∀ d ∈ v.directories, ∀ e ∈ v.entries d, e.inode ≠ 0

/-- A tool that has mapped the image of a volume. -/
structure Shows (s : State) (v : Volume) : Prop where
  represents : Represents s.disk v
  size : s.size = 128 * 1024
  table : s.indTable = tableAt s.disk

namespace Represents

variable {v v' : Volume}

theorem bounds (h : Represents m v) (hd : d ∈ v.directories) : 1 ≤ d ∧ d ≤ total m .ind :=
  bounds_of_directories (h.directories ▸ hd)

theorem entries_ne_nil (h : Represents m v) (hd : d ∈ v.directories) : v.entries d ≠ [] := by
  obtain ⟨ess, hlist, hentries⟩ := h.listing d hd
  obtain ⟨pre, blk, preEss, es, e, _, rfl, _, _⟩ := hlist.split (h.ne_nil d hd)
  simp [hentries]

/-- An image that agrees on the fields and the table, and keeps what is in use, represents what its directories
and free numbers are then. -/
theorem edit (h : Represents m v) (hfields : ∀ a < bgPad, m' a = m a)
    (htable : ∀ a, tableAt m ≤ a → a < tableAt m + inodeSize * total m .ind → m' a = m a)
    (hused : ∀ b n, 1 ≤ n → n ≤ 8 * EXT2_BLOCK_SIZE → usedOn m b n = true → used m' (bitmapAt m b) n = true)
    (hdirs : v'.directories = v.directories)
    (hfree : ∀ b, v'.free b = Ext2.free m' (bitmapAt m b) (total m b))
    (hlisting : ∀ d ∈ v.directories, ∃ ess, Listing m' (inodeOn m d).blocks ess ∧ v'.entries d = ess.flatten)
    (hinode : ∀ d ∈ v.directories, ∀ e ∈ v'.entries d, e.inode ≠ 0) : Represents m' v' := by
  have h1024 : EXT2_BLOCK_SIZE = 1024 := rfl
  have hN := fun b => (h.layout.total b).1
  have htotal := total_congr hfields
  have hbitmap := bitmapAt_congr hfields
  have hinodeOn : ∀ n, 1 ≤ n ∧ n ≤ total m .ind → inodeOn m' n = inodeOn m n := fun n hn => by
    have haddr := inodeSize_le hn
    rw [inodeOn, inodeOn, tableAt_congr hfields]
    exact decodeInode_congr fun i h1 h2 => htable i (by omega) (by omega)
  have hsub : ∀ n ∈ freeOn m' .ind, n ∈ freeOn m .ind := fun n hn => by
    obtain ⟨hrange, hclear⟩ := mem_free.mp hn
    rw [htotal] at hrange
    rw [hbitmap] at hclear
    refine mem_free.mpr ⟨hrange, ?_⟩
    by_contra hset
    have hset' := hused .ind n hrange.1 (by have := hN .ind; omega) (by simpa [usedOn] using hset)
    rw [hclear] at hset'
    cases hset'
  have hblank : ∀ n ∈ freeOn m' .ind, IS_DIR (inodeOn m' n).iMode = false := fun n hn => by
    rw [hinodeOn n (mem_free.mp (hsub n hn)).1]
    exact h.blank n (hsub n hn)
  have hsame : Ext2.directories m' = Ext2.directories m := by
    rw [Ext2.directories, Ext2.directories, inodesInUse, inodesInUse, List.filter_filter, List.filter_filter,
      htotal]
    refine List.filter_congr fun n hn => ?_
    have hrange := List.mem_range'_1.mp hn
    have hrange : 1 ≤ n ∧ n ≤ total m .ind := by omega
    rw [hinodeOn n hrange]
    cases hdir : IS_DIR (inodeOn m n).iMode with
    | false => simp
    | true =>
      have hkept : usedOn m .ind n = true := by
        by_contra hclear
        have := h.blank n (mem_free.mpr ⟨hrange, by simpa [usedOn] using hclear⟩)
        rw [hdir] at this
        cases this
      have hkept' : usedOn m' .ind n = true := by
        rw [usedOn, hbitmap]
        exact hused .ind n hrange.1 (by have := hN .ind; omega) hkept
      rw [hkept, hkept']
  have hinodes : ∀ d ∈ v.directories, inodeOn m' d = inodeOn m d := fun d hd => hinodeOn d (h.bounds hd)
  constructor
  case layout =>
    refine h.layout.congr hfields fun b n h1 h10 => ?_
    exact hused b n h1 (by omega) (h.layout.reserved b n h1 h10)
  case directories => rw [hdirs, h.directories, hsame]
  case root => exact hdirs ▸ h.root
  case free =>
    intro b
    rw [hfree, freeOn, hbitmap, htotal]
  case blank => exact hblank
  case ne_nil =>
    intro d hd
    rw [hdirs] at hd
    rw [hinodes d hd]
    exact h.ne_nil d hd
  case direct =>
    intro d hd
    rw [hdirs] at hd
    rw [hinodes d hd]
    exact h.direct d hd
  case blocksUsed =>
    intro d hd blk hblk
    rw [hdirs] at hd
    rw [hinodes d hd] at hblk
    obtain ⟨hbehind, hlt, hkept⟩ := h.blocksUsed d hd blk hblk
    have hpos : 1 ≤ blk := Nat.pos_of_ne_zero fun h0 => by
      have := hbehind.1 .blk
      rw [h0] at this
      omega
    rw [Behind, htotal, htotal, tableAt_congr hfields, usedOn, hbitmap]
    simp only [hbitmap]
    exact ⟨hbehind, hlt, hused .blk blk hpos (by have := hN .blk; omega) hkept⟩
  case blocksOnce =>
    rw [hdirs, List.flatMap_congr fun d hd => congrArg Inode.blocks (hinodes d hd)]
    exact h.blocksOnce
  case listing =>
    intro d hd
    rw [hdirs] at hd
    rw [hinodes d hd]
    exact hlisting d hd
  case inode_ne => exact fun d hd => hinode d (hdirs ▸ hd)

/-- The blocks of directories lie behind the bitmaps and the table, and none of them is free. -/
theorem listing_congr (h : Represents m v) (hd : d ∈ v.directories)
    (hm : ∀ blk ∈ (inodeOn m d).blocks, Behind m blk → usedOn m .blk blk = true → ∀ a,
      blk * EXT2_BLOCK_SIZE ≤ a → a < blk * EXT2_BLOCK_SIZE + EXT2_BLOCK_SIZE → m' a = m a) :
    ∃ ess, Listing m' (inodeOn m d).blocks ess ∧ v.entries d = ess.flatten := by
  obtain ⟨ess, hlist, hentries⟩ := h.listing d hd
  refine ⟨ess, hlist.congr fun blk hblk => ?_, hentries⟩
  obtain ⟨hbehind, _, hused⟩ := h.blocksUsed d hd blk hblk
  exact hm blk hblk hbehind hused

/-- With other contents of a block, only the entries can be others. -/
theorem write (h : Represents m v) (hx : Behind m x)
    (hm : ∀ a, a < x * EXT2_BLOCK_SIZE ∨ x * EXT2_BLOCK_SIZE + EXT2_BLOCK_SIZE ≤ a → m' a = m a)
    (hdirs : v'.directories = v.directories) (hfree : v'.free = v.free)
    (hlisting : ∀ d ∈ v.directories, ∃ ess, Listing m' (inodeOn m d).blocks ess ∧ v'.entries d = ess.flatten)
    (hinode : ∀ d ∈ v.directories, ∀ e ∈ v'.entries d, e.inode ≠ 0) : Represents m' v' := by
  have hbitmaps := fun b => (h.layout.bitmaps b).1
  have hpad : bgPad ≤ 3 * EXT2_BLOCK_SIZE := by decide
  have h1024 : EXT2_BLOCK_SIZE = 1024 := rfl
  have hbits : ∀ b k, 1 ≤ k → k ≤ 8 * EXT2_BLOCK_SIZE → used m' (bitmapAt m b) k = usedOn m b k := by
    intro b k h1 hk
    have := hx.1 b
    rw [used, hm _ (.inl (by omega)), usedOn, used]
  refine h.edit (fun a ha => hm a (.inl ?_)) (fun a _ h2 => hm a (.inl ?_))
    (fun b k h1 hk hused => (hbits b k h1 hk).trans hused) hdirs (fun b => ?_) hlisting hinode
  · have := hx.1 .blk
    have := hbitmaps .blk
    omega
  · have := hx.2
    omega
  · have hN := (h.layout.total b).1
    rw [hfree, h.free, freeOn_congr fun k h1 hk => hbits b k h1 (by omega)]

/-- The contents of a free block are those of no directory. -/
theorem fill (h : Represents m v) (hn : n ∈ freeOn m .blk)
    (hm : ∀ a, a < n * EXT2_BLOCK_SIZE ∨ n * EXT2_BLOCK_SIZE + EXT2_BLOCK_SIZE ≤ a → m' a = m a) :
    Represents m' v := by
  refine h.write (h.layout.behind_of_free hn) hm rfl rfl (fun d hd => ?_) h.inode_ne
  refine h.listing_congr hd fun blk _ _ hused a h1 h2 => hm a ?_
  exact outside_of_ne (ne_of_free hused hn) h1 h2

/-- The lowest free number is marked. -/
theorem mark (h : Represents m v) (hn : (freeOn m b).head? = some n) :
    Represents (flips m (bitmapAt m b) [n]) { v with free := Function.update v.free b (v.free b).tail } := by
  have h1024 : EXT2_BLOCK_SIZE = 1024 := rfl
  have hN := fun b => (h.layout.total b).1
  have hbitmaps := fun b => (h.layout.bitmaps b).1
  have hpad : bgPad ≤ 3 * EXT2_BLOCK_SIZE := by decide
  obtain ⟨⟨hn1, hnN⟩, _⟩ := mem_free.mp (List.mem_of_head? hn)
  have hkept : ∀ a, a < bitmapAt m b ∨ bitmapAt m b + EXT2_BLOCK_SIZE ≤ a →
      flips m (bitmapAt m b) [n] a = m a := fun a ha => by
    have := hN b
    exact flips_of_forall_ne (by simp; omega)
  have hother : ∀ b' k, b' ≠ b → 1 ≤ k → k ≤ 8 * EXT2_BLOCK_SIZE →
      used (flips m (bitmapAt m b) [n]) (bitmapAt m b') k = usedOn m b' k := by
    intro b' k hb h1 hk
    have hapart := h.layout.apart
    have hout : bitmapAt m b' + EXT2_BLOCK_SIZE ≤ bitmapAt m b ∨
        bitmapAt m b + EXT2_BLOCK_SIZE ≤ bitmapAt m b' := by
      cases b <;> cases b' <;> first | exact absurd rfl hb | omega
    rw [used, hkept _ (by omega), usedOn, used]
  refine h.edit (fun a ha => hkept a (.inl ?_)) (fun a h1 h2 => hkept a ?_) (fun b' k h1 hk hused => ?_) rfl
    (fun b' => ?_) (fun d hd => ?_) h.inode_ne
  · have := hbitmaps b
    omega
  · rcases h.layout.tableApart b with hb | hb
    · exact .inr (by omega)
    · exact .inl (by omega)
  · by_cases hb : b' = b
    · subst hb
      have hne : k ≠ n := ne_of_free hused (List.mem_of_head? hn)
      rw [used_flips (by simp) (by simpa using hn1) h1, decide_eq_false (by simpa using hne), Bool.xor_false]
      exact hused
    · rw [hother b' k hb h1 hk, hused]
  · by_cases hb : b' = b
    · subst hb
      dsimp only
      rw [Function.update_self, h.free, free_mark hn, freeOn]
    · dsimp only
      have := hN b'
      rw [Function.update_of_ne hb, h.free, freeOn_congr fun k h1 hk => hother b' k hb h1 (by omega)]
  · exact h.listing_congr hd fun blk _ hbehind _ a h1 _ => hkept a (.inr ((hbehind.1 b).trans h1))

section

variable {D : Memory} {nb : Nat} (h : Represents m v) (hi : (freeOn m .ind).head? = some i)
  (hnb : (freeOn m .blk).head? = some nb)
  (hD : ∀ a, a < nb * EXT2_BLOCK_SIZE ∨ nb * EXT2_BLOCK_SIZE + EXT2_BLOCK_SIZE ≤ a → D a = m a)

include h hnb hD

theorem fields_taken : ∀ a < bgPad, flips (flips D (bitmapAt m .ind) [i]) (bitmapAt m .blk) [nb] a = m a := by
  intro a ha
  have hbitmaps := fun b => (h.layout.bitmaps b).1
  have hbehind := (h.layout.behind_of_free (List.mem_of_head? hnb)).1 .blk
  have hpad : bgPad ≤ 3 * EXT2_BLOCK_SIZE := by decide
  have hind := hbitmaps .ind
  have hblk := hbitmaps .blk
  rw [flips_of_forall_ne (by simp; omega), flips_of_forall_ne (by simp; omega), hD a (.inl (by omega))]

include hi

/-- A free inode and a free block are taken, once the block has its contents. -/
theorem taken : Represents (flips (flips D (bitmapAt m .ind) [i]) (bitmapAt m .blk) [nb]) v.take := by
  have hfilled := h.fill (List.mem_of_head? hnb) hD
  have hbitmaps := fun b => (h.layout.bitmaps b).1
  have hpad : bgPad ≤ 3 * EXT2_BLOCK_SIZE := by decide
  have hbehind := (h.layout.behind_of_free (List.mem_of_head? hnb)).1 .blk
  have hsame : ∀ b, bitmapAt D b = bitmapAt m b := bitmapAt_congr fun a ha => hD a (.inl (by
    have := hbitmaps .blk
    omega))
  have hind := hfilled.mark (b := .ind) (n := i) (by rw [← hfilled.free, h.free, hi])
  rw [hsame] at hind
  have hsame' : bitmapAt (flips D (bitmapAt m .ind) [i]) .blk = bitmapAt m .blk := by
    rw [← hsame .blk]
    exact bitmapAt_congr (fun a ha => flips_of_forall_ne (by have := hbitmaps .ind; simp; omega)) .blk
  have hblk := hind.mark (b := .blk) (n := nb) (by rw [← hind.free]; exact (congrArg _ (h.free .blk)).trans hnb)
  rw [hsame'] at hblk
  have htake : v.take = { v with
      free := Function.update (Function.update v.free .ind (v.free .ind).tail) .blk (v.free .blk).tail } := by
    rw [Volume.take]
    congr 1
    funext b
    cases b <;> rfl
  exact htake ▸ hblk

end

/-- An entry is added behind the last one of a directory. -/
theorem addEntry {pre : List Nat} {preEss : List (List DirEntry)} {fileType : Nat} (h : Represents m v)
    (hd : d ∈ v.directories) (hblocks : (inodeOn m d).blocks = pre ++ [x])
    (hlist : Listing m (pre ++ [x]) (preEss ++ [es ++ [e]]))
    (hentries : v.entries d = preEss.flatten ++ es ++ [e]) (hshort : e.nameLen ≤ 4)
    (hroom : 12 + max 12 (8 + name.chars.length) ≤ e.recLen) (hn : n ≠ 0 ∧ n < 2 ^ 32) (htype : fileType < 256)
    (hname : name.chars.length < 256) :
    Represents (afterSplit m (x * EXT2_BLOCK_SIZE + sizes entries es) e n fileType name)
      (v.addEntry d n fileType name) := by
  have hx : x ∈ (inodeOn m d).blocks := by simp [hblocks]
  obtain ⟨hbehind, _, _⟩ := h.blocksUsed d hd x hx
  have hblock := hlist.last.2
  have hkept : ∀ a, a < x * EXT2_BLOCK_SIZE ∨ x * EXT2_BLOCK_SIZE + EXT2_BLOCK_SIZE ≤ a →
      afterSplit m (x * EXT2_BLOCK_SIZE + sizes entries es) e n fileType name a = m a :=
    fun a ha => afterSplit_apply hblock hshort hroom ha
  obtain ⟨heach, hpair⟩ := List.nodup_flatMap.mp h.blocksOnce
  -- Other directories do not have the block, and this one has it only at its end.
  refine h.write hbehind hkept rfl rfl (fun d' hd' => ?_) fun d' hd' => ?_
  · by_cases hdd : d' = d
    · subst hdd
      obtain ⟨_, _, heq, hpre, _⟩ := Listing.concat.mp hlist
      obtain ⟨rfl, _⟩ := List.append_inj' heq rfl
      have hnodup := heach d' hd
      rw [hblocks, List.nodup_append] at hnodup
      rw [hblocks, Volume.entries_addEntry_self, hentries, withEntry_concat]
      refine ⟨_, Listing.concat.mpr ⟨_, _, rfl, hpre.congr fun blk hblk a h1 h2 => hkept a ?_,
        block_afterSplit hblock rfl hshort hroom hn.2 htype hname⟩, ?_⟩
      · exact outside_of_ne (hnodup.2.2 blk hblk x (by simp)) h1 h2
      · simp [newEntry]
    · rw [Volume.entries_addEntry_of_ne hdd]
      refine h.listing_congr hd' fun blk hblk _ _ a h1 h2 => hkept a ?_
      refine outside_of_ne ?_ h1 h2
      rintro rfl
      have hsymm : Std.Symm (Function.onFun List.Disjoint fun d => (inodeOn m d).blocks) :=
        ⟨fun _ _ hdisjoint => hdisjoint.symm⟩
      exact hpair.forall hd' hd hdd hblk hx
  · by_cases hdd : d' = d
    · subst hdd
      rw [Volume.entries_addEntry_self]
      exact inode_ne_withEntry (h.inode_ne d' hd) hn.1
    · rw [Volume.entries_addEntry_of_ne hdd]
      exact h.inode_ne d' hd'

end Represents

namespace Shows

variable {v : Volume}

theorem directDir (h : Shows s v) (hd : d ∈ v.directories) : DirectDir s d (inodeOn s.disk d).blocks := by
  have hrep := h.represents
  have hbounds := hrep.bounds hd
  have hN := hrep.layout.total
  have hend : tableAt s.disk + inodeSize * total s.disk .ind ≤ 11 * 1024 := hrep.layout.table.2
  have haddr := inodeSize_le hbounds
  have hinode : inodeOf s d = inodeOn s.disk d := by rw [inodeOf, inodeAddr, h.table, inodeOn]
  have hsize := h.size
  have h1024 : EXT2_BLOCK_SIZE = 1024 := rfl
  constructor
  case num => have := hN .ind; omega
  case size => omega
  case table => rw [inodeAddr, h.table]; omega
  case iBlock => rw [hinode]; exact hrep.direct d hd
  case ne_nil => exact hrep.ne_nil d hd
  case length_le => exact (inodeOn s.disk d).length_blocks_le
  case nodup => exact (List.nodup_flatMap.mp hrep.blocksOnce).1 d hd
  case behind =>
    intro b hb
    have := (hrep.blocksUsed d hd b hb).1.2
    rw [inodeAddr, h.table]
    omega
  case mapped =>
    intro b hb
    have hlt := (hrep.blocksUsed d hd b hb).2.1
    have := hN .blk
    have hle : b * EXT2_BLOCK_SIZE + EXT2_BLOCK_SIZE ≤ 128 * EXT2_BLOCK_SIZE := block_le_of_lt (by omega)
    omega

/-- `dir_entry_exists` looks up paths of the volume. -/
theorem run_dirEntryExists {path : List Name} {start : Nat} (h : Shows s v)
    (hstart : (if start ≠ 0 then start else EXT2_ROOT_INO) ∈ v.directories) :
    (dirEntryExists path start).run s = .done (v.lookup path start) s := by
  cases path with
  | nil => rfl
  | cons c path =>
    rw [Volume.lookup]
    generalize hd : (if start ≠ 0 then start else EXT2_ROOT_INO) = d at hstart ⊢
    have hdirect := h.directDir hstart
    obtain ⟨ess, hlist, hentries⟩ := h.represents.listing d hstart
    generalize (inodeOn s.disk d).blocks = blocks at hdirect hlist
    have hlen := hdirect.length_le
    have h11 : INDIRECT_BLK_INDEX = 11 := rfl
    have hinode := h.represents.inode_ne d hstart
    rw [hentries] at hinode
    have hloop : (loop .diverges (lookupRound (inodeOf s d) c) (INDIRECT_BLK_INDEX + 2) (0, 0)).run s =
        .done (firstMatch c ess.flatten) s :=
      loop_lookupRound [] hdirect.iBlock hlen (fun b hb => Nat.ne_zero_of_lt (hdirect.pos hb))
        hdirect.mapped hdirect.size hlist hinode (by omega)
    have hone : dirEntryExists (c :: path) start =
        resolve [c] 0 (if start ≠ 0 then start else EXT2_ROOT_INO) := rfl
    rw [hone, hd, resolve, if_pos rfl, bind_done (run_indTableAt hdirect.num hdirect.table), bind_done hloop,
      hentries]
    by_cases hzero : firstMatch c ess.flatten = 0
    · rw [if_pos hzero, hzero, run_pure]
    · rw [if_neg hzero, resolve, run_pure]

/-- With room behind its last entry, `mk_dir_entry` adds the entry to the directory. -/
theorem mkEntryFor_done {fileType : Nat} (h : Shows s v) (hd : d ∈ v.directories)
    (hroom : HasRoom (v.entries d) name.chars.length) (hname : name.chars.length < 2 ^ 8) (hn : n ≠ 0 ∧ n < 2 ^ 32)
    (htype : fileType < 256) (hrun : (mkEntryFor d n fileType name).run s = .done () s') :
    Represents s'.disk (v.addEntry d n fileType name) := by
  have hrep := h.represents
  have hdir := h.directDir hd
  obtain ⟨ess, hlist, hentries⟩ := hrep.listing d hd
  obtain ⟨pre, x, preEss, es, e, hblocks, rfl, _, hblock⟩ := hlist.split (hrep.ne_nil d hd)
  obtain ⟨e', hlast, hshort, hrec⟩ := hroom
  rw [List.flatten_append, List.flatten_singleton, ← List.append_assoc] at hentries
  rw [hentries, List.getLast?_concat] at hlast
  cases hlast
  have hpad : TRUE_FILE_SIZE e.nameLen + TRUE_FILE_SIZE name.chars.length ≤ e.recLen := by
    have h12 : TRUE_FILE_SIZE e.nameLen = 12 := if_pos (by omega)
    have := TRUE_FILE_SIZE_le_max name.chars.length
    omega
  rw [hblocks] at hdir hlist
  rw [mkEntryFor, Nat.mod_eq_of_lt hname, run_mkDirEntry_split hdir hblock rfl hpad] at hrun
  obtain ⟨_, rfl⟩ := hrun
  exact hrep.addEntry hd hblocks hlist hentries hshort hrec hn htype hname

end Shows

theorem Mounted.fields (h : Mounted m s) : ∀ a < bgPad, s.disk a = m a := by
  intro a ha
  rw [h.disk, zeroed_apply (.inl ha)]

/-- What `init_globals` zeroes belongs to no volume. -/
theorem Represents.mounted {v : Volume} (h : Represents m v) (hmounted : Mounted m s) : Shows s v := by
  have hbehind : ∀ a, 3 * EXT2_BLOCK_SIZE ≤ a → s.disk a = m a := fun a ha => by
    rw [hmounted.disk, zeroed_apply (.inr ha)]
  have hbitmaps := fun b => (h.layout.bitmaps b).1
  have htable := h.layout.table.1
  have hbits : ∀ b n, used s.disk (bitmapAt m b) n = usedOn m b n := fun b n => by
    have := hbitmaps b
    rw [used, hbehind _ (by omega), usedOn, used]
  refine ⟨h.edit hmounted.fields (fun a h1 _ => hbehind a (by omega)) (fun b n _ _ hn => (hbits b n).trans hn) rfl
    (fun b => ?_) (fun d hd => h.listing_congr hd fun blk _ hblk _ a h1 _ => hbehind a ?_) h.inode_ne,
    hmounted.size, ?_⟩
  · rw [h.free, freeOn_congr fun n _ _ => hbits b n]
  · have := hblk.1 .blk
    have := hbitmaps .blk
    omega
  · rw [hmounted.table, tableAt_congr hmounted.fields]

/-! ## The disk with a file -/

/-- The volume of the disk with a file. -/
def volumeWithFile : Volume where
  directories := [2, 11]
  entries d := if d = 2 then fileDiskEntries 9 else fileDiskEntries 10
  free := freeOn fileDisk

theorem represents_fileDisk : Represents fileDisk volumeWithFile where
  layout := layout_fileDisk
  directories := directories_fileDisk.symm
  root := by decide
  free _ := rfl
  blank := by decide +kernel
  ne_nil := by decide +kernel
  direct := by decide +kernel
  blocksUsed d hd blk hblk := by
    have hdir : d ∈ directories fileDisk := directories_fileDisk ▸ hd
    exact consistent_fileDisk.tallied.blocksUsed d hdir blk (List.mem_append_left _ hblk)
  blocksOnce := by decide +kernel
  listing := by
    have hroot : (inodeOn fileDisk 2).blocks = [9] := by decide +kernel
    have hlost : (inodeOn fileDisk 11).blocks = [10] := by decide +kernel
    intro d hd
    obtain rfl | rfl : d = 2 ∨ d = 11 := by simpa [volumeWithFile] using hd
    · exact ⟨[fileDiskEntries 9], hroot ▸ .cons (by decide +kernel) .nil, rfl⟩
    · exact ⟨[fileDiskEntries 10], hlost ▸ .cons (by decide +kernel) .nil, rfl⟩
  inode_ne := by decide

end Ext2

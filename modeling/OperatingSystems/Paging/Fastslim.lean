-- SUMMARY: fastslim.py: the trace it prints is the slim one, the simulator reads it back, and the misses on it bound those on the whole.
import OperatingSystems.Library.Epochs
import OperatingSystems.Paging.Optimality
import OperatingSystems.Paging.TraceFile

/-!
# Fastslim

`fastslim.py` makes a short trace of what valgrind writes. It keeps the entries of a buffer of pages,
and prints them when a page comes that the buffer has no room for. An entry of a page that is in the
buffer is to be marked there, but the mark goes to the new entry, which is dropped.
-/

namespace Paging

open Library

/-! ## The code -/

/-- `TraceItem`. Two of them are equal if their pages are. -/
structure TraceItem where
  reftype : List Char
  pg : Int
  tstamp : Nat
  marked : Bool
deriving DecidableEq, Repr

/-- `__init__`. -/
def TraceItem.init (reftype : List Char) (pg : Int) (tstamp : Nat) : TraceItem :=
  { reftype := reftype, pg := pg, tstamp := tstamp, marked := false }

/-- `__repr__`. -/
def TraceItem.repr (ti : TraceItem) : List Char := ti.reftype ++ ' ' :: formatHex (ti.pg * 4096)

/-- The globals, with what has been printed. The set is a list of its members, in some order. -/
structure Fastslim where
  ts : Nat
  tracebuffer : List TraceItem
  toprint : List TraceItem
  stdout : List Char
deriving DecidableEq, Repr

def Fastslim.zero : Fastslim := { ts := 0, tracebuffer := [], toprint := [], stdout := [] }

/-- `emit_marked_in_ts_order`. -/
def emitMarkedInTsOrder (g : Fastslim) : Fastslim :=
  let toprint := g.toprint ++ g.tracebuffer.filter fun ti => ti.marked
  let toprint := toprint.mergeSort fun ti tj => decide (ti.tstamp ≤ tj.tstamp)
  { g with
    tracebuffer := []
    toprint := []
    stdout := g.stdout ++ toprint.flatMap fun ti => ti.repr ++ ['\n'] }

/-- A reference that is traced: its type, and its page. -/
structure Reference where
  reftype : List Char
  pg : Int
deriving DecidableEq, Repr

/-- The loop body up to the page of the line, if that is not skipped. -/
def lineReference (keepcode : Bool) (line : List Char) : Option Reference :=
  if line.head? = some '=' then none
  else
    let reftype := strip (line.take 2)
    if reftype = ['I'] ∧ keepcode = false then none
    else
      let addrstr := strip ((line.takeWhile (· ≠ ',')).drop 3)
      match intHex addrstr with
      | none => none
      | some addr => some { reftype := reftype, pg := addr / 4096 }

/-- The loop body from there on, with the new entry. -/
def addItem (buffersize : Int) (ti : TraceItem) (g : Fastslim) : Fastslim :=
  let g :=
    if g.tracebuffer.any fun old => old.pg = ti.pg then
      -- It is `ti` that is marked and has its time set, and `ti` is not used any more.
      g
    else
      let g := if (g.tracebuffer.length : Int) = buffersize then emitMarkedInTsOrder g else g
      { g with toprint := g.toprint ++ [ti], tracebuffer := g.tracebuffer ++ [ti] }
  { g with ts := g.ts + 1 }

/-- The loop body. -/
def fastslimLine (keepcode : Bool) (buffersize : Int) (g : Fastslim) (line : List Char) : Fastslim :=
  match lineReference keepcode line with
  | none => g
  | some ref => addItem buffersize (.init ref.reftype ref.pg g.ts) g

/-- What the program prints, of the text of a trace. What is in the buffer at the end is not. -/
def fastslim (keepcode : Bool) (buffersize : Int) (text : List Char) : List Char :=
  ((lines text).foldl (fastslimLine keepcode buffersize) .zero).stdout

/-! ## What is printed -/

/-- The references of a text that are not skipped. -/
def traced (keepcode : Bool) (text : List Char) : List Reference :=
  (lines text).filterMap (lineReference keepcode)

/-- The line that is printed for a reference. -/
def Reference.line (ref : Reference) : List Char :=
  ref.reftype ++ ' ' :: formatHex (ref.pg * 4096) ++ ['\n']

def TraceItem.reference (ti : TraceItem) : Reference := { reftype := ti.reftype, pg := ti.pg }

variable {keepcode : Bool} {b : Nat} {text line : List Char} {g : Fastslim} {ti : TraceItem}
  {refs : List Reference} {ref : Reference}

variable {buffersize : Int}

theorem addItem_of_mem (h : (g.tracebuffer.any fun old => old.pg = ti.pg) = true) :
    addItem buffersize ti g = { g with ts := g.ts + 1 } := by
  rw [addItem, if_pos h]

theorem addItem_of_room (h : ¬(g.tracebuffer.any fun old => old.pg = ti.pg) = true)
    (hroom : (g.tracebuffer.length : Int) ≠ buffersize) : addItem buffersize ti g = { g with
      toprint := g.toprint ++ [ti]
      tracebuffer := g.tracebuffer ++ [ti]
      ts := g.ts + 1 } := by
  rw [addItem, if_neg h, if_neg hroom]

theorem addItem_of_full (h : ¬(g.tracebuffer.any fun old => old.pg = ti.pg) = true)
    (hfull : (g.tracebuffer.length : Int) = buffersize) : addItem buffersize ti g = { g with
      toprint := [ti]
      tracebuffer := [ti]
      stdout := (emitMarkedInTsOrder g).stdout
      ts := g.ts + 1 } := by
  rw [addItem, if_neg h, if_pos hfull]
  rfl

/-- What is to be printed is what is in the buffer, without marks, and in order. -/
structure Buffered (g : Fastslim) : Prop where
  tracebuffer : g.tracebuffer = g.toprint
  unmarked : ∀ ti ∈ g.toprint, ti.marked = false
  earlier : ∀ ti ∈ g.toprint, ti.tstamp < g.ts
  sorted : g.toprint.Pairwise fun ti tj => ti.tstamp < tj.tstamp

namespace Buffered

theorem emit (h : Buffered g) : (emitMarkedInTsOrder g).stdout =
    g.stdout ++ (g.toprint.map TraceItem.reference).flatMap Reference.line := by
  have hmarked : g.toprint.filter (fun ti => ti.marked) = [] :=
    List.filter_eq_nil_iff.mpr fun ti hti => by simp [h.unmarked ti hti]
  have horder : g.toprint.Pairwise fun ti tj => decide (ti.tstamp ≤ tj.tstamp) = true :=
    h.sorted.imp fun hlt => by simpa using hlt.le
  rw [emitMarkedInTsOrder, h.tracebuffer, hmarked, List.append_nil]
  simp only [List.mergeSort_of_pairwise horder, List.flatMap_map]
  rfl

theorem tick (h : Buffered g) : Buffered { g with ts := g.ts + 1 } where
  tracebuffer := h.tracebuffer
  unmarked := h.unmarked
  earlier ti hti := Nat.lt_succ_of_lt (h.earlier ti hti)
  sorted := h.sorted

theorem push (h : Buffered g) (ref : Reference) : Buffered { g with
    toprint := g.toprint ++ [.init ref.reftype ref.pg g.ts]
    tracebuffer := g.tracebuffer ++ [.init ref.reftype ref.pg g.ts]
    ts := g.ts + 1 } where
  tracebuffer := congrArg (· ++ _) h.tracebuffer
  unmarked ti hti := by
    rcases List.mem_append.mp hti with hti | hti
    · exact h.unmarked ti hti
    · rw [List.mem_singleton.mp hti]
      rfl
  earlier ti hti := by
    rcases List.mem_append.mp hti with hti | hti
    · exact Nat.lt_succ_of_lt (h.earlier ti hti)
    · rw [List.mem_singleton.mp hti]
      exact Nat.lt_succ_self _
  sorted := by
    refine List.pairwise_append.mpr ⟨h.sorted, List.pairwise_singleton _ _, fun ti hti tj htj => ?_⟩
    rw [List.mem_singleton.mp htj]
    exact h.earlier ti hti

theorem single (stdout : List Char) (ref : Reference) (ts : Nat) : Buffered
    { ts := ts + 1, tracebuffer := [.init ref.reftype ref.pg ts],
      toprint := [.init ref.reftype ref.pg ts], stdout := stdout } where
  tracebuffer := rfl
  unmarked ti hti := by
    rw [List.mem_singleton.mp hti]
    rfl
  earlier ti hti := by
    rw [List.mem_singleton.mp hti]
    exact Nat.lt_succ_self _
  sorted := List.pairwise_singleton _ _

end Buffered

/-- After these references, the buffer has the first ones of the epoch that is open, and those of the
other epochs are printed. -/
structure Slimmed (b : Nat) (refs : List Reference) (g : Fastslim) : Prop extends Buffered g where
  toprint : g.toprint.map TraceItem.reference =
    Epochs.firsts Reference.pg (Epochs.cut Reference.pg b refs).opened
  stdout : g.stdout = (Epochs.slim Reference.pg b refs).flatMap Reference.line

theorem slimmed_zero (b : Nat) : Slimmed b [] .zero where
  tracebuffer := rfl
  unmarked _ hti := absurd hti List.not_mem_nil
  earlier _ hti := absurd hti List.not_mem_nil
  sorted := .nil
  toprint := rfl
  stdout := rfl

namespace Slimmed

theorem mem_iff (h : Slimmed b refs g) (pg : Int) :
    (g.tracebuffer.any fun old => old.pg = pg) = true ↔
      pg ∈ (Epochs.cut Reference.pg b refs).opened.map Reference.pg := by
  rw [← Epochs.mem_map_firsts, ← h.toprint, h.tracebuffer]
  simp [TraceItem.reference]

theorem length_eq (h : Slimmed b refs g) : g.tracebuffer.length =
    (Epochs.firsts Reference.pg (Epochs.cut Reference.pg b refs).opened).length := by
  rw [← h.toprint, List.length_map, h.tracebuffer]

/-- One reference more. -/
theorem addItem (h : Slimmed b refs g) (ref : Reference) :
    Slimmed b (refs ++ [ref]) (addItem b (.init ref.reftype ref.pg g.ts) g) := by
  have hlen := h.length_eq
  have htoprint := h.toprint
  have hstdout := h.stdout
  rw [Epochs.slim] at hstdout
  rcases (Epochs.cut Reference.pg b refs).add_cases Reference.pg b ref with
    ⟨hold, hadd⟩ | ⟨hnew, hroom, hadd⟩ | ⟨hnew, hfull, hadd⟩
  · rw [addItem_of_mem ((h.mem_iff ref.pg).mpr hold)]
    refine ⟨h.tick, ?_, ?_⟩
    · rw [Epochs.cut_concat, hadd, Epochs.firsts_of_mem hold]
      exact htoprint
    · rw [Epochs.slim, Epochs.cut_concat, hadd]
      exact hstdout
  · rw [addItem_of_room ((h.mem_iff ref.pg).not.mpr hnew) (by omega)]
    refine ⟨h.push ref, ?_, ?_⟩
    · rw [Epochs.cut_concat, hadd, Epochs.firsts_of_notMem hnew, List.map_append, htoprint]
      rfl
    · rw [Epochs.slim, Epochs.cut_concat, hadd]
      exact hstdout
  · rw [addItem_of_full ((h.mem_iff ref.pg).not.mpr hnew) (by omega)]
    refine ⟨Buffered.single _ ref g.ts, ?_, ?_⟩
    · rw [Epochs.cut_concat, hadd]
      rfl
    · rw [Epochs.slim, Epochs.cut_concat, hadd, h.emit, htoprint, hstdout, List.flatMap_append,
        List.flatMap_append, List.flatMap_singleton]

end Slimmed

/-- What is printed is the slim trace. -/
theorem fastslim_eq (keepcode : Bool) (b : Nat) (text : List Char) : fastslim keepcode b text =
    (Epochs.slim Reference.pg b (traced keepcode text)).flatMap Reference.line := by
  have hlines : ∀ ls : List (List Char), Slimmed b (ls.filterMap (lineReference keepcode))
      (ls.foldl (fastslimLine keepcode b) .zero) := by
    intro ls
    induction ls using List.reverseRecOn with
    | nil => exact slimmed_zero b
    | append_singleton ls line ih =>
      rw [List.foldl_append, List.foldl_cons, List.foldl_nil, List.filterMap_append, fastslimLine,
        List.filterMap_cons, List.filterMap_nil]
      split
      · rename_i hskip
        rw [hskip, List.append_nil]
        exact ih
      · rename_i ref href
        rw [href]
        exact ih.addItem ref
  exact (hlines (lines text)).stdout

/-! ## What is read back -/

/-- The access of a reference, at the start of its page. -/
def Reference.access (ref : Reference) : Access :=
  { type := ref.reftype.headD ' ', vaddr := BitVec.ofInt 64 (ref.pg * 4096) }

/-- A reference as valgrind has them: its type is one character, and its page is in the memory that
addresses of 64 bits reach. -/
structure Reference.Plain (ref : Reference) : Prop where
  type : ∃ c, ref.reftype = [c] ∧ c ≠ '=' ∧ c ≠ '\x00'
  range : 0 ≤ ref.pg ∧ ref.pg < 2 ^ 52

/-- The type of a reference is not a blank. -/
theorem not_isspace_of_traced {c : Char} (href : ref ∈ traced keepcode text)
    (hc : ref.reftype = [c]) : isspace c = false := by
  obtain ⟨line, _, hline⟩ := List.mem_filterMap.mp href
  unfold lineReference at hline
  split at hline
  · cases hline
  · dsimp only at hline
    split at hline
    · cases hline
    · split at hline
      · cases hline
      · cases hline
        exact @not_isspace_of_strip [] _ _ hc

namespace Reference.Plain

theorem exists_nat (h : ref.Plain) : ∃ n : Nat, ref.pg = n ∧ n < 2 ^ 52 := by
  obtain ⟨n, hn⟩ := Int.eq_ofNat_of_zero_le h.range.1
  have hlt := h.range.2
  exact ⟨n, hn, by omega⟩

theorem vaddr (h : ref.Plain) : (ref.access.vaddr.toNat : Int) = ref.pg * 4096 := by
  obtain ⟨n, hn, hlt⟩ := h.exists_nat
  rw [Reference.access, hn]
  simp only [BitVec.toNat_ofInt]
  omega

theorem writesHex (h : ref.Plain) :
    WritesHex (formatHex (ref.pg * 4096)) ref.access.vaddr.toNat := by
  have hvaddr := h.vaddr
  obtain ⟨n, hn, hlt⟩ := h.exists_nat
  have hcast : ref.pg * 4096 = ((n * 4096 : Nat) : Int) := by rw [hn]; rfl
  have hnat : ref.access.vaddr.toNat = n * 4096 := by omega
  rw [hcast, hnat]
  exact writesHex_toDigits (n * 4096)

theorem length_le (h : ref.Plain) : (formatHex (ref.pg * 4096)).length ≤ 16 := by
  obtain ⟨n, hn, hlt⟩ := h.exists_nat
  have hcast : ref.pg * 4096 = ((n * 4096 : Nat) : Int) := by rw [hn]; rfl
  rw [hcast]
  exact (Nat.length_toDigits_le_iff (by decide) (by decide)).mpr (by omega)

/-- What is printed is an entry of a trace file. -/
theorem isEntry (h : ref.Plain) {c : Char} (hc : ref.reftype = [c]) (hspace : isspace c = false) :
    (∃ body, '\n' ∉ body ∧ ref.line = body ++ ['\n'] ∧ body.length + 1 < MAXLINE) ∧
      IsEntry ref.line ref.access := by
  obtain ⟨d, hd, htype⟩ := h.type
  obtain rfl : d = c := by
    rw [hc] at hd
    exact (List.singleton_inj.mp hd).symm
  have hbody : '\n' ∉ [d] ++ ' ' :: formatHex (ref.pg * 4096) := by
    have hne : d ≠ '\n' := by
      rintro rfl
      cases hspace
    simp [hne.symm, h.writesHex.ne_newline]
  have hline : ref.line = [d] ++ ' ' :: formatHex (ref.pg * 4096) ++ ['\n'] := by
    rw [Reference.line, hc]
  refine ⟨⟨_, hbody, hline, ?_⟩, ?_, [' '], formatHex (ref.pg * 4096), [], ?_, ?_⟩
  · have hlen := h.length_le
    rw [List.length_append, List.length_singleton, List.length_cons, MAXLINE]
    omega
  · rw [Reference.access, hc]
    exact htype
  · rw [hline, content_line hbody, Reference.access, hc, List.append_nil]
    rfl
  · have hblank : ∀ c ∈ [' '], isspace c := fun c hc => List.mem_singleton.mp hc ▸ rfl
    exact ⟨by decide, hblank, h.writesHex, fun _ hc => absurd hc List.not_mem_nil⟩

end Reference.Plain

/-- A reference whose line is an entry, and is read by one call of `fgets`. -/
def Reference.Readable (ref : Reference) : Prop :=
  (∃ body, '\n' ∉ body ∧ ref.line = body ++ ['\n'] ∧ body.length + 1 < MAXLINE) ∧
    IsEntry ref.line ref.access

theorem readable_of_traced (hplain : ∀ ref ∈ traced keepcode text, ref.Plain) :
    ∀ ref ∈ Epochs.slim Reference.pg b (traced keepcode text), ref.Readable := by
  intro ref href
  have href' := (Epochs.slim_sublist Reference.pg b (traced keepcode text)).subset href
  have h := hplain ref href'
  obtain ⟨c, hc, _⟩ := h.type
  exact h.isEntry hc (not_isspace_of_traced href' hc)

theorem buffers_printed (h : ∀ ref ∈ refs, ref.Readable) :
    buffers MAXLINE (refs.flatMap Reference.line) = refs.map Reference.line ∧
      lines (refs.flatMap Reference.line) = refs.map Reference.line := by
  induction refs with
  | nil => exact ⟨rfl, rfl⟩
  | cons ref refs ih =>
    obtain ⟨⟨⟨body, hbody, hline, hlen⟩, _⟩, hrefs⟩ := List.forall_mem_cons.mp h
    obtain ⟨hbuffers, hlines⟩ := ih hrefs
    rw [List.flatMap_cons, List.map_cons, hline, List.append_assoc, List.singleton_append]
    exact ⟨by rw [buffers_append hbody hlen, hbuffers], by rw [lines_append hbody, hlines]⟩

theorem callsFrom_printed (h : ∀ ref ∈ refs, ref.Readable) (a : Access) :
    callsFrom a (refs.map Reference.line) = refs.map Reference.access ∧
      Describes (refs.map Reference.line) (refs.map Reference.access) := by
  induction refs generalizing a with
  | nil => exact ⟨rfl, .nil⟩
  | cons ref refs ih =>
    obtain ⟨⟨_, hentry⟩, hrefs⟩ := List.forall_mem_cons.mp h
    obtain ⟨hcalls, hdescribes⟩ := ih hrefs ref.access
    refine ⟨?_, .entry hentry hdescribes⟩
    rw [List.map_cons, callsFrom, if_pos hentry.head?_ne, hentry.scanAccess, hcalls, List.map_cons]

/-- The accesses that `replay_trace` makes of what is printed. -/
theorem calls_fastslim (hplain : ∀ ref ∈ traced keepcode text, ref.Plain) (type : Char) :
    calls type (fastslim keepcode b text) =
      (Epochs.slim Reference.pg b (traced keepcode text)).map Reference.access := by
  have hreadable := readable_of_traced hplain (b := b)
  rw [calls, fastslim_eq, (buffers_printed hreadable).1, (callsFrom_printed hreadable _).1]

/-- What is printed is a well-formed trace, of the first reference to each page in each epoch that is
over, and `replay_trace` makes exactly these accesses. -/
theorem fastslim_replays (hplain : ∀ ref ∈ traced keepcode text, ref.Plain) :
    Describes (lines (fastslim keepcode b text))
        ((Epochs.slim Reference.pg b (traced keepcode text)).map Reference.access) ∧
      ∀ (σ : Type) (accessMem : Access → σ → Except Fault σ) (type : Char) (s : σ),
        replayTrace accessMem type (fastslim keepcode b text) s = Run.exec accessMem
          ((Epochs.slim Reference.pg b (traced keepcode text)).map Reference.access) s := by
  have hreadable := readable_of_traced hplain (b := b)
  constructor
  · rw [fastslim_eq, (buffers_printed hreadable).2]
    exact (callsFrom_printed hreadable { type := ' ', vaddr := 0 }).2
  · intro σ accessMem type s
    rw [replayTrace_eq, calls_fastslim hplain]

/-! ## Misses -/

section Misses

variable {σ τ φ ψ : Type} {m n n' swapsize swapsize' : Nat} {physmem physmem' : Memory} {fd : φ}
  {fd' : ψ}

/-- The accesses of the whole trace, page by page. -/
def wholeTrace (keepcode : Bool) (text : List Char) : List Access :=
  (traced keepcode text).map Reference.access

/-- In the memory that the page directory reaches, pages have addresses of their own. -/
theorem wholeTrace_aligned (hrefs : ∀ ref ∈ traced keepcode text, ref.Plain ∧ ref.pg < 2 ^ 24) :
    ∀ a ∈ wholeTrace keepcode text, a.vaddr.toNat < 2 ^ 36 ∧ a.vaddr.toNat % 4096 = 0 := by
  intro a ha
  obtain ⟨ref, href, rfl⟩ := List.mem_map.mp ha
  obtain ⟨hplain, hlt⟩ := hrefs ref href
  have hvaddr := hplain.vaddr
  omega

/-- The accesses made of what is printed are the slim trace of the whole one. -/
theorem calls_eq_slim (hrefs : ∀ ref ∈ traced keepcode text, ref.Plain ∧ ref.pg < 2 ^ 24)
    (type : Char) : calls type (fastslim keepcode b text) =
      Epochs.slim (fun a : Access => pteOf a.vaddr) b (wholeTrace keepcode text) := by
  have hpages : ∀ ref ∈ traced keepcode text, ∀ ref' ∈ traced keepcode text,
      pteOf ref.access.vaddr = pteOf ref'.access.vaddr ↔ ref.pg = ref'.pg := by
    intro ref href ref' href'
    have haligned := wholeTrace_aligned hrefs
    obtain ⟨hrange, hoffset⟩ := haligned _ (List.mem_map_of_mem href)
    obtain ⟨hrange', hoffset'⟩ := haligned _ (List.mem_map_of_mem href')
    have hvaddr := (hrefs ref href).1.vaddr
    have hvaddr' := (hrefs ref' href').1.vaddr
    constructor
    · intro hpte
      rw [pteOf_injective hrange hrange' hoffset hoffset' hpte] at hvaddr
      omega
    · intro hpg
      have heq : ref.access.vaddr = ref'.access.vaddr := BitVec.eq_of_toNat_eq (by omega)
      rw [heq]
  rw [calls_fastslim fun ref href => (hrefs ref href).1, wholeTrace]
  exact Eq.symm (Epochs.slim_map hpages)

/-- Under lru, with `b - 1` frames more the printed trace has no more misses than the whole one, and
the whole one no more than the printed one, but for the last `b`. -/
theorem fastslim_lru (io : FileOps φ) (hb : 1 ≤ b) (hm : 2 ≤ m) (hmax : m + b - 1 ≤ 2 ^ 20)
    (hswap : swapsize < 2 ^ 32) (physmem : Memory) (fd : φ)
    (hrefs : ∀ ref ∈ traced keepcode text, ref.Plain ∧ ref.pg < 2 ^ 24) (type : Char) :
    ∃ whole whole' printed printed',
      simulate lru io m swapsize physmem fd .zero (wholeTrace keepcode text) = .ok whole ∧
      simulate lru io (m + b - 1) swapsize physmem fd .zero (wholeTrace keepcode text) = .ok whole' ∧
      simulate lru io m swapsize physmem fd .zero (calls type (fastslim keepcode b text)) =
        .ok printed ∧
      simulate lru io (m + b - 1) swapsize physmem fd .zero (calls type (fastslim keepcode b text)) =
        .ok printed' ∧
      printed'.missCount ≤ whole.missCount ∧ whole'.missCount ≤ printed.missCount + b := by
  have hrange : ∀ a ∈ wholeTrace keepcode text, a.vaddr.toNat < 2 ^ 36 := fun a ha =>
    (wholeTrace_aligned hrefs a ha).1
  have hsubset : Epochs.slim (fun a : Access => pteOf a.vaddr) b (wholeTrace keepcode text) ⊆
      wholeTrace keepcode text := (Epochs.slim_sublist _ _ _).subset
  rw [calls_eq_slim hrefs]
  obtain ⟨whole, hwhole, hc⟩ := simulate_caches io ⟨hm, by omega⟩ hswap physmem fd hrange
  obtain ⟨whole', hwhole', hc'⟩ := simulate_caches io ⟨by omega, hmax⟩ hswap physmem fd hrange
  obtain ⟨printed, hprinted, hd⟩ := simulate_caches io ⟨hm, by omega⟩ hswap physmem fd
    fun a ha => hrange a (hsubset ha)
  obtain ⟨printed', hprinted', hd'⟩ := simulate_caches io ⟨by omega, hmax⟩ hswap physmem fd
    fun a ha => hrange a (hsubset ha)
  refine ⟨whole, whole', printed, printed', hwhole, hwhole', hprinted, hprinted', ?_⟩
  rw [hc.misses, hc'.misses, hd.misses, hd'.misses]
  exact Epochs.misses_slim hb (Nat.le_of_succ_le hm) _

/-- With its queues built, opt has no more misses on the printed trace than any policy has on the
whole one in as many frames or fewer, and on the whole trace, but for the last `b`, no more than any
policy has on the printed one in `b - 1` frames fewer. -/
theorem fastslim_opt (io : FileOps φ) {io' : FileOps ψ} (hb : 1 ≤ b) (hm : 1 ≤ m ∧ m ≤ 2 ^ 20)
    (hn : n ≤ m) (hn' : 1 ≤ n' ∧ n' + b - 1 ≤ m) (hswap : swapsize < 2 ^ 32)
    (hswap' : swapsize' < 2 ^ 32) (physmem : Memory) (fd : φ)
    (hrefs : ∀ ref ∈ traced keepcode text, ref.Plain ∧ ref.pg < 2 ^ 24) (type : Char)
    (hbuckets : ∀ a ∈ wholeTrace keepcode text, ∀ b ∈ wholeTrace keepcode text,
      hashcode a.vaddr = hashcode b.vaddr → a.vaddr = b.vaddr) {o o' : OptGlobals}
    (ho : o.vaddrCounter = 0 ∧ ∀ h, o.Lists h (positions h 0 (wholeTrace keepcode text)))
    (ho' : o'.vaddrCounter = 0 ∧
      ∀ h, o'.Lists h (positions h 0 (calls type (fastslim keepcode b text))))
    {fns : Functions σ ψ} (hfns : fns.Respectful) {alg : σ} {s : Sim σ ψ}
    (hrun : simulate fns io' n swapsize' physmem' fd' alg (wholeTrace keepcode text) = .ok s)
    {fns' : Functions τ ψ} (hfns' : fns'.Respectful) {alg' : τ} {s' : Sim τ ψ}
    (hrun' : simulate fns' io' n' swapsize' physmem' fd' alg'
      (calls type (fastslim keepcode b text)) = .ok s') :
    ∃ whole printed,
      simulate opt io m swapsize physmem fd o (wholeTrace keepcode text) = .ok whole ∧
      simulate opt io m swapsize physmem fd o' (calls type (fastslim keepcode b text)) =
        .ok printed ∧
      printed.missCount ≤ s.missCount ∧ whole.missCount ≤ s'.missCount + b := by
  have haligned := wholeTrace_aligned hrefs
  have hsubset : Epochs.slim (fun a : Access => pteOf a.vaddr) b (wholeTrace keepcode text) ⊆
      wholeTrace keepcode text := (Epochs.slim_sublist _ _ _).subset
  rw [calls_eq_slim hrefs] at ho' hrun' ⊢
  obtain ⟨whole, hwhole, _⟩ := ends_of_range (fun a ha => (haligned a ha).1)
    (opt_runs io hm hswap physmem fd ho _)
  obtain ⟨printed, hprinted, _⟩ := ends_of_range (fun a ha => (haligned a (hsubset ha)).1)
    (opt_runs io hm hswap physmem fd ho' _)
  refine ⟨whole, printed, hwhole, hprinted, ?_, ?_⟩
  · have hle := Epochs.slim_misses_le hn (demand opt_respectful hm.2 hswap hprinted)
      (opt_evictsLast hm hswap (fun a ha => haligned a (hsubset ha))
        (fun a ha c hc => hbuckets a (hsubset ha) c (hsubset hc)) ho' hprinted)
      (demand hfns (hn.trans hm.2) hswap' hrun).service
    rwa [demand_misses, Caching.Run.service_misses, demand_misses] at hle
  · have hle := Epochs.misses_le_slim hb hn'.1 hn'.2 (demand opt_respectful hm.2 hswap hwhole)
      (opt_evictsLast hm hswap haligned hbuckets ho hwhole)
      (demand hfns' (by omega) hswap' hrun').service
    rwa [demand_misses, Caching.Run.service_misses, demand_misses] at hle

/-- Three lines, the second of them to the page of the first, and a buffer of one page. -/
def lackeyLines : List Char :=
  [' ', 'L', ' ', '1', '0', ',', '8', '\n', ' ', 'S', ' ', '2', '0', ',', '4', '\n',
    ' ', 'L', ' ', '1', '0', '0', '0', ',', '8', '\n']

theorem traced_lackeyLines : traced false lackeyLines = [⟨['L'], 0⟩, ⟨['S'], 0⟩, ⟨['L'], 1⟩] := by
  decide

theorem plain_lackeyLines : ∀ ref ∈ traced false lackeyLines, ref.Plain ∧ ref.pg < 2 ^ 24 := by
  rw [traced_lackeyLines]
  intro ref href
  simp only [List.mem_cons, List.mem_nil_iff, or_false] at href
  rcases href with rfl | rfl | rfl
  all_goals exact ⟨⟨⟨_, rfl, by decide⟩, by decide⟩, by decide⟩

theorem slim_lackeyLines : (Epochs.slim Reference.pg 1 (traced false lackeyLines)).map
    Reference.access = [⟨'L', 0x0⟩] := by
  rw [traced_lackeyLines]
  decide

/-- Only the first reference is printed: the third one is still in the buffer. -/
theorem fastslim_replays_lackeyLines :
    replayTrace (fun a log => .ok (log ++ [a])) 'I' (fastslim false 1 lackeyLines) [] =
      (.ok [⟨'L', 0x0⟩] : Except Fault (List Access)) := by
  have hplain : ∀ ref ∈ traced false lackeyLines, ref.Plain := fun ref href =>
    (plain_lackeyLines ref href).1
  have hreplay := (@fastslim_replays false 1 lackeyLines hplain).2 (List Access)
    (fun a log => .ok (log ++ [a])) 'I' []
  rw [slim_lackeyLines] at hreplay
  exact hreplay

theorem fastslim_lru_lackeyLines : ∃ whole printed,
    simulate lru regularFile.toFileOps 2 4 (fun _ => 0) .empty .zero
      (wholeTrace false lackeyLines) = .ok whole ∧
    simulate lru regularFile.toFileOps 2 4 (fun _ => 0) .empty .zero
      (calls 'I' (fastslim false 1 lackeyLines)) = .ok printed ∧
    printed.missCount ≤ whole.missCount := by
  obtain ⟨whole, _, _, printed, hwhole, _, _, hprinted, hle, _⟩ := fastslim_lru
    regularFile.toFileOps (show 1 ≤ 1 by decide) (le_refl 2) (by decide) (show 4 < 2 ^ 32 by decide)
    (fun _ => 0) .empty plain_lackeyLines 'I'
  exact ⟨whole, printed, hwhole, hprinted, hle⟩

/-- Against rand in one frame. -/
theorem fastslim_opt_lackeyLines : ∃ o o' whole printed s s',
    enqueueAll (wholeTrace false lackeyLines) = .ok o ∧
    enqueueAll (calls 'I' (fastslim false 1 lackeyLines)) = .ok o' ∧
    simulate opt regularFile.toFileOps 2 4 (fun _ => 0) .empty o
      (wholeTrace false lackeyLines) = .ok whole ∧
    simulate opt regularFile.toFileOps 2 4 (fun _ => 0) .empty o'
      (calls 'I' (fastslim false 1 lackeyLines)) = .ok printed ∧
    simulate rand regularFile.toFileOps 1 4 (fun _ => 0) .empty ⟨fun n => n, 0⟩
      (wholeTrace false lackeyLines) = .ok s ∧
    simulate rand regularFile.toFileOps 1 4 (fun _ => 0) .empty ⟨fun n => n, 0⟩
      (calls 'I' (fastslim false 1 lackeyLines)) = .ok s' ∧
    printed.missCount ≤ s.missCount ∧ whole.missCount ≤ s'.missCount + 1 := by
  have hwhole : wholeTrace false lackeyLines = [⟨'L', 0x0⟩, ⟨'S', 0x0⟩, ⟨'L', 0x1000⟩] := by
    rw [wholeTrace, traced_lackeyLines]
    decide
  have hprinted : calls 'I' (fastslim false 1 lackeyLines) = [⟨'L', 0x0⟩] :=
    (@calls_fastslim false 1 lackeyLines (fun ref href => (plain_lackeyLines ref href).1) 'I').trans
      slim_lackeyLines
  obtain ⟨o, ho, hlists⟩ := enqueueAll_lists (wholeTrace false lackeyLines)
  obtain ⟨o', ho', hlists'⟩ := enqueueAll_lists (calls 'I' (fastslim false 1 lackeyLines))
  have hanswers := rand_chooses.answers regularFile.toFileOps (show 1 ≤ 1 ∧ 1 ≤ 2 ^ 20 by decide)
    (show 4 < 2 ^ 32 by decide) (fun _ => 0) .empty ⟨fun n => n, 0⟩
  obtain ⟨s, hs⟩ := simulate_ok (hanswers (wholeTrace false lackeyLines)) (by decide) (by decide)
    (by rw [hwhole]; decide)
  obtain ⟨s', hs'⟩ := simulate_ok (hanswers (calls 'I' (fastslim false 1 lackeyLines))) (by decide)
    (by decide) (by rw [hprinted]; decide)
  obtain ⟨whole, printed, hw, hp, hle⟩ := fastslim_opt regularFile.toFileOps (show 1 ≤ 1 by decide)
    (show 1 ≤ 2 ∧ 2 ≤ 2 ^ 20 by decide) (show 1 ≤ 2 by decide) (show 1 ≤ 1 ∧ 1 + 1 - 1 ≤ 2 by decide)
    (show 4 < 2 ^ 32 by decide) (show 4 < 2 ^ 32 by decide) (fun _ => 0) .empty plain_lackeyLines 'I'
    (by rw [hwhole]; decide) hlists hlists' rand_chooses.toRespectful hs rand_chooses.toRespectful hs'
  exact ⟨o, o', whole, printed, s, s', ho, ho', hw, hp, hs, hs', hle⟩

end Misses

end Paging

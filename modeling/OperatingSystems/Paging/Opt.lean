-- SUMMARY: The opt replacement algorithm: its queues of positions, and the pass over the trace that is to build them.
import OperatingSystems.Library.Links
import OperatingSystems.Paging.Policy
import OperatingSystems.Paging.TraceFile

/-!
# The optimal algorithm

`opt_init` reads the trace before it is replayed, and is to queue the position of every access in the
bucket of its address. `opt_evict` looks up the next position of the page in each frame there.
-/

namespace Paging

open Library Library.Run

/-! ## The code -/

def VADDRMAX : Nat := 100000

/-- A pointer to a node is its place among the nodes allocated. -/
abbrev NodePtr := Nat

/-- `struct node`. -/
structure Node where
  index : Nat
  next : Option NodePtr
deriving DecidableEq, Repr

/-- `struct queue`. -/
structure Queue where
  head : Option NodePtr
  tail : Option NodePtr
deriving DecidableEq, Repr

/-- The globals of `opt.c`, with the nodes allocated so far. -/
structure OptGlobals where
  nodes : List Node
  vaddrTable : Nat → Queue
  vaddrCounter : Nat

namespace OptGlobals

/-- Before `opt_init`. -/
def zero : OptGlobals :=
  { nodes := [], vaddrTable := fun _ => { head := none, tail := none }, vaddrCounter := 0 }

/-- Read the node a pointer points to. -/
def deref (o : OptGlobals) : Option NodePtr → Except Fault Node
  | none => .error .nullPointer
  | some p =>
    match o.nodes[p]? with
    | none => .error .outOfBounds
    | some n => .ok n

/-- A node that is allocated, behind the others. -/
def push (o : OptGlobals) (node : Node) : OptGlobals := { o with nodes := o.nodes ++ [node] }

def setNode (o : OptGlobals) (p : NodePtr) (n : Node) : OptGlobals :=
  { o with nodes := o.nodes.set p n }

def setQueue (o : OptGlobals) (h : Nat) (q : Queue) : OptGlobals :=
  { o with vaddrTable := Function.update o.vaddrTable h q }

end OptGlobals

/-- `vaddr % VADDRMAX`. -/
def hashcode (vaddr : Addr) : Nat := vaddr.toNat % VADDRMAX

/-- `pop`, of the queue of a bucket. -/
def pop (h : Nat) (o : OptGlobals) : Except Fault (Nat × OptGlobals) := do
  let q := o.vaddrTable h
  let head ← o.deref q.head
  .ok (head.index, o.setQueue h { q with head := head.next })

/-- The loop of `opt_evict` over what has passed already. A queue that is longer than there are nodes
goes round in a circle. -/
def popPassed (h : Nat) : Nat → OptGlobals → Except Fault OptGlobals
  | 0, _ => .error .outOfFuel
  | rounds + 1, o =>
    match (o.vaddrTable h).head with
    | none => .ok o
    | some p => do
      let head ← o.deref (some p)
      if head.index < o.vaddrCounter then do
        let (_, o) ← pop h o
        popPassed h rounds o
      else .ok o

/-- The test of `opt_evict` whether a bucket has no position to come. -/
def noneToCome (h : Nat) (o : OptGlobals) : Except Fault Bool :=
  let q := o.vaddrTable h
  match q.head with
  | none => .ok true
  | some _ => do
    let tail ← o.deref q.tail
    .ok (tail.index < o.vaddrCounter)

/-- The local variables of `opt_evict`: `evicted` is not initialized. -/
structure Evictee where
  furthestIndex : Nat
  evicted : Option Frame

variable {φ : Type}

/-- The loop of `opt_evict` over the frames of the coremap. -/
def findEvictee : List Nat → Evictee → Sim OptGlobals φ → Except Fault (Evictee × Sim OptGlobals φ)
  | [], v, s => .ok (v, s)
  | i :: is, v, s => do
    let candidate := s.coremap i
    let h := hashcode candidate.vaddr
    if ← noneToCome h s.alg then .ok ({ v with evicted := some candidate }, s)
    else do
      let o ← popPassed h (s.alg.nodes.length + 1) s.alg
      let s := s.setAlg o
      let head ← o.deref (o.vaddrTable h).head
      if v.furthestIndex = 0 ∨ head.index > v.furthestIndex then
        findEvictee is { furthestIndex := head.index, evicted := some candidate } s
      else findEvictee is v s

/-- `opt_evict`, where `furthest_index` happens to have a value at first. -/
def optEvict (furthestIndex : Nat) (s : Sim OptGlobals φ) : Except Fault (Nat × Sim OptGlobals φ) := do
  let (v, s) ← findEvictee (List.range s.memsize) { furthestIndex, evicted := none } s
  match v.evicted.bind Frame.pte with
  | none => .error .nullPointer
  | some p => .ok ((s.entry p).frameNo, s)

/-- `opt_ref`. -/
def optRef (_ : PtePtr) (s : Sim OptGlobals φ) : Except Fault (Sim OptGlobals φ) :=
  .ok (s.setAlg { s.alg with vaddrCounter := s.alg.vaddrCounter + 1 })

/-- What `insert` does with a new node. -/
def insertNode (newNode : Option NodePtr) (vaddr : Addr) (counter : Nat) (o : OptGlobals) :
    Except Fault OptGlobals := do
  let h := hashcode vaddr
  let node ← o.deref newNode
  match newNode with
  | none => .error .nullPointer
  | some n => do
    let o := o.setNode n { node with index := counter }
    let q := o.vaddrTable h
    match q.head, q.tail with
    | none, _ => .ok (o.setQueue h { head := some n, tail := some n })
    | some _, none => .error .nullPointer
    | some _, some t => do
      let last ← o.deref (some t)
      let o := o.setNode t { last with next := some n }
      .ok (o.setQueue h { q with tail := some n })

/-- `insert`. No node is allocated: the new node is NULL. -/
def OptGlobals.insert (vaddr : Addr) (counter : Nat) (o : OptGlobals) : Except Fault OptGlobals :=
  insertNode none vaddr counter o

/-- `sscanf(buf, "%lx", &vaddr)`, its result ignored. -/
def scanVaddr (buf : List Char) (vaddr : Addr) : Addr :=
  match sscanf buf [.long] with
  | .long n :: _ => n
  | _ => vaddr

/-- The body of the loop of `opt_init`, with the variable that outlives it. -/
def optInitLine (buf : List Char) (vars : Addr × OptGlobals) : Except Fault (Addr × OptGlobals) :=
  if buf.head? ≠ some '=' then do
    let vaddr := scanVaddr buf vars.1
    let o ← vars.2.insert vaddr vars.2.vaddrCounter
    .ok (vaddr, { o with vaddrCounter := o.vaddrCounter + 1 })
  else .ok vars

/-- `opt_init`, on the text of the trace file. -/
def optInit (text : List Char) (o : OptGlobals) : Except Fault OptGlobals := do
  let (_, o) ← exec optInitLine (buffers MAXLINE text) (0, { o with vaddrCounter := 0 })
  .ok { o with vaddrCounter := 0 }

/-- The algorithm under the name `opt`, with the queues that are there when the replay begins. -/
def opt : Functions OptGlobals φ := { init := id, ref := optRef, evict := optEvict 0 }

/-! ## Queues -/

namespace OptGlobals

def next (o : OptGlobals) (p : NodePtr) : Option NodePtr := o.nodes[p]?.bind Node.next

def index (o : OptGlobals) (p : NodePtr) : Option Nat := o.nodes[p]?.map Node.index

/-- The queue of a bucket holds these nodes, with these positions. -/
structure Queued (o : OptGlobals) (h : Nat) (ptrs : List NodePtr) (l : List Nat) : Prop where
  follows : Follows o.next (o.vaddrTable h).head ptrs
  index : ptrs.map o.index = l.map some
  tail : ptrs ≠ [] → (o.vaddrTable h).tail = ptrs.getLast?
  length_le : ptrs.length ≤ o.nodes.length

/-- The queue of a bucket lists these positions, from head to tail. -/
def Lists (o : OptGlobals) (h : Nat) (l : List Nat) : Prop := ∃ ptrs, o.Queued h ptrs l

end OptGlobals

/-- The positions of the accesses that hash to a bucket, in a trace whose first position is `k`. -/
def positions (h : Nat) : Nat → List Access → List Nat
  | _, [] => []
  | k, a :: as => if hashcode a.vaddr = h then k :: positions h (k + 1) as else positions h (k + 1) as

/-! ## The pass over the trace -/

variable {vars vars' : Addr × OptGlobals} {buf text : List Char} {bufs : List (List Char)}

/-- `insert` follows the pointer that it has just set to NULL. -/
theorem insert_error (vaddr : Addr) (counter : Nat) (o : OptGlobals) :
    o.insert vaddr counter = .error .nullPointer := rfl

theorem optInitLine_skip (h : buf.head? = some '=') (vars : Addr × OptGlobals) :
    optInitLine buf vars = .ok vars := if_neg (not_not.mpr h)

/-- The pass ends only if there is nothing to insert. -/
theorem exec_optInitLine : exec optInitLine bufs vars = .ok vars' ↔
    (∀ buf ∈ bufs, buf.head? = some '=') ∧ vars' = vars := by
  induction bufs with
  | nil =>
    rw [exec_nil, Except.ok.injEq]
    exact ⟨fun h => ⟨fun _ hbuf => absurd hbuf List.not_mem_nil, h.symm⟩, fun h => h.2.symm⟩
  | cons buf bufs ih =>
    rw [List.forall_mem_cons]
    by_cases hskip : buf.head? = some '='
    · rw [exec, optInitLine_skip hskip, ok_bind, ih]
      simp only [hskip, true_and]
    · simp only [hskip, false_and, iff_false, exec, optInitLine, if_pos hskip, insert_error,
        error_bind]
      exact fun h => by cases h

theorem callsFrom_skip (a : Access) (h : ∀ buf ∈ bufs, buf.head? = some '=') :
    callsFrom a bufs = [] := by
  induction bufs with
  | nil => rfl
  | cons buf bufs ih =>
    obtain ⟨hskip, hbufs⟩ := List.forall_mem_cons.mp h
    rw [callsFrom, if_neg (not_not.mpr hskip), ih hbufs]

theorem lists_zero (h : Nat) : OptGlobals.zero.Lists h [] :=
  ⟨[], rfl, rfl, fun hne => absurd rfl hne, Nat.le_refl _⟩

/-- `opt_init` completes, with every position of the replay queued in the bucket of its address, if
and only if `replay_trace` makes no access at all. -/
theorem optInit_iff {text : List Char} (hlen : ∀ l ∈ lines text, l.length < MAXLINE) (type : Char) :
    (∃ o, optInit text .zero = .ok o ∧ (∀ h, o.Lists h (positions h 0 (calls type text))) ∧
      o.vaddrCounter = 0) ↔ ∀ l ∈ lines text, l.head? = some '=' := by
  rw [calls, ← buffers_eq_lines hlen]
  constructor
  · rintro ⟨o, hinit, -⟩
    obtain ⟨vars, hexec, -⟩ := bind_eq_ok.mp hinit
    exact (exec_optInitLine.mp hexec).1
  · intro hskip
    refine ⟨.zero, ?_, ?_, rfl⟩
    · rw [optInit, exec_optInitLine.mpr ⟨hskip, rfl⟩]
      rfl
    · rw [callsFrom_skip _ hskip]
      exact lists_zero

/-- A trace of comments only. -/
theorem optInit_iff_comment : ∃ o, optInit ['=', '=', '\n'] .zero = .ok o ∧ o.vaddrCounter = 0 := by
  have hlen : ∀ l ∈ lines ['=', '=', '\n'], l.length < MAXLINE := by decide
  obtain ⟨o, hinit, -, hcounter⟩ := (optInit_iff hlen 'I').mpr (by decide)
  exact ⟨o, hinit, hcounter⟩

/-- The first access of any trace is the end of it. -/
theorem not_optInit_entry : ¬∃ o, optInit ['I', ' ', '0', '\n'] .zero = .ok o ∧
    (∀ h, o.Lists h (positions h 0 (calls 'I' ['I', ' ', '0', '\n']))) ∧ o.vaddrCounter = 0 := by
  rintro ⟨o, hinit, -⟩
  cases hinit

/-- Nor would the address be the one that is accessed: `sscanf` finds the type in its place, and
`vaddr` stays what it was. -/
theorem scanVaddr_entry {line : List Char} {a : Access} (h : IsEntry line a)
    (hblank : isspace a.type = false) (hdigit : isxdigit a.type = false)
    (hsign : a.type ≠ '-' ∧ a.type ≠ '+') (vaddr : Addr) : scanVaddr line vaddr = vaddr := by
  obtain ⟨cs, rfl⟩ : ∃ cs, line = a.type :: cs := by
    cases line with
    | nil => cases h.head?
    | cons c cs => exact ⟨cs, by rw [Option.some.inj h.head?]⟩
  have hzero : a.type ≠ '0' := by
    intro heq
    rw [heq] at hdigit
    cases hdigit
  have hnone : ∀ cs, scanLong (a.type :: cs) = none := by
    intro cs
    have hsign' : scanSign (a.type :: cs) = (false, a.type :: cs) := by simp [scanSign, hsign]
    have hscan : scanPrefix (a.type :: cs) = a.type :: cs := by simp [scanPrefix, hzero]
    rw [scanLong, List.dropWhile_cons_of_neg (by simp [hblank]), hsign']
    simp only [hscan, List.takeWhile_cons_of_neg (show ¬isxdigit a.type = true by simp [hdigit]),
      if_true]
  rw [scanVaddr, sscanf, List.takeWhile_cons_of_pos (by simpa using h.type_ne.2), scan, hnone]

/-! ## What `insert` is meant to build -/

/-- `insert` with a node that `calloc` gives. -/
def enqueue (vaddr : Addr) (counter : Nat) (o : OptGlobals) : Except Fault OptGlobals :=
  insertNode (some o.nodes.length) vaddr counter (o.push { index := 0, next := none })

/-- One access more. -/
def enqueueNext (a : Access) (o : OptGlobals) : Except Fault OptGlobals := do
  let o ← enqueue a.vaddr o.vaddrCounter o
  .ok { o with vaddrCounter := o.vaddrCounter + 1 }

/-- The accesses of a trace, enqueued one after the other. -/
def enqueueAll (trace : List Access) : Except Fault OptGlobals := do
  let o ← exec enqueueNext trace .zero
  .ok { o with vaddrCounter := 0 }

section

variable {h k n : Nat} {trace as : List Access} {a : Access} {o o' : OptGlobals}

theorem positions_append (h k : Nat) (as bs : List Access) :
    positions h k (as ++ bs) = positions h k as ++ positions h (k + as.length) bs := by
  induction as generalizing k with
  | nil => rfl
  | cons a as ih =>
    have hk : k + 1 + as.length = k + (a :: as).length := by
      rw [List.length_cons]
      omega
    rw [List.cons_append, positions, positions, ih, hk]
    split <;> rfl

theorem mem_positions : n ∈ positions h k as ↔
    ∃ a, k ≤ n ∧ as[n - k]? = some a ∧ hashcode a.vaddr = h := by
  induction as generalizing k with
  | nil => simp [positions]
  | cons a as ih =>
    have htail : n ∈ positions h (k + 1) as ↔
        ∃ b, k < n ∧ (a :: as)[n - k]? = some b ∧ hashcode b.vaddr = h := by
      rw [ih]
      refine exists_congr fun b => and_congr_right fun hn => ?_
      have hsub : n - k = n - (k + 1) + 1 := by omega
      rw [hsub, List.getElem?_cons_succ]
    have hhead : n = k ∧ hashcode a.vaddr = h ↔
        ∃ b, n = k ∧ (a :: as)[n - k]? = some b ∧ hashcode b.vaddr = h := by
      constructor
      · rintro ⟨rfl, hh⟩
        exact ⟨a, rfl, by simp, hh⟩
      · rintro ⟨b, rfl, hb, hh⟩
        rw [Nat.sub_self, List.getElem?_cons_zero, Option.some.injEq] at hb
        exact ⟨rfl, hb ▸ hh⟩
    have hsplit : n ∈ positions h k (a :: as) ↔
        n = k ∧ hashcode a.vaddr = h ∨ n ∈ positions h (k + 1) as := by
      rw [positions]
      split
      · rename_i hh
        simp [hh]
      · rename_i hh
        simp [hh]
    rw [hsplit, hhead, htail, ← exists_or]
    have hle : n = k ∨ k < n ↔ k ≤ n := by omega
    exact exists_congr fun b => by rw [← or_and_right, hle]

theorem positions_sorted : (positions h k as).Pairwise (· < ·) := by
  induction as generalizing k with
  | nil => exact .nil
  | cons a as ih =>
    rw [positions]
    split
    · refine List.pairwise_cons.mpr ⟨fun n hn => ?_, ih⟩
      obtain ⟨_, hle, _⟩ := mem_positions.mp hn
      exact hle
    · exact ih

theorem positions_lt (hn : n ∈ positions h 0 as) : n < as.length := by
  obtain ⟨a, _, ha, _⟩ := mem_positions.mp hn
  exact (List.getElem?_eq_some_iff.mp ha).1

theorem length_positions_le (h k : Nat) (as : List Access) :
    (positions h k as).length ≤ as.length := by
  induction as generalizing k with
  | nil => exact Nat.le_refl _
  | cons a as ih =>
    have hle := ih (k + 1)
    rw [positions, List.length_cons]
    split
    · rw [List.length_cons]
      omega
    · omega

theorem positions_nodup (h k : Nat) (as : List Access) : (positions h k as).Nodup :=
  positions_sorted.imp fun hlt => hlt.ne

/-- An access is in the bucket of its own address only. -/
theorem positions_disjoint {h' : Nat} (hn : n ∈ positions h k as) (hn' : n ∈ positions h' k as) :
    h = h' := by
  obtain ⟨a, _, ha, hh⟩ := mem_positions.mp hn
  obtain ⟨b, _, hb, hh'⟩ := mem_positions.mp hn'
  cases ha.symm.trans hb
  exact hh.symm.trans hh'

namespace OptGlobals

variable {p t : Nat} {node : Node}

theorem next_length : o.next o.nodes.length = none := by
  rw [next, List.getElem?_eq_none (Nat.le_refl _)]
  rfl

theorem next_push (hnext : node.next = none) : (o.push node).next p = o.next p := by
  rw [next, next, push]
  rcases Nat.lt_trichotomy p o.nodes.length with hlt | heq | hgt
  · rw [List.getElem?_append_left hlt]
  · subst heq
    simpa using hnext
  · have hlen : (o.nodes ++ [node]).length ≤ p := by
      rw [List.length_append, List.length_singleton]
      omega
    rw [List.getElem?_eq_none hlen, List.getElem?_eq_none (by omega)]

theorem index_push : (o.push node).index p =
    if p = o.nodes.length then some node.index else o.index p := by
  rw [index, index, push]
  rcases Nat.lt_trichotomy p o.nodes.length with hlt | heq | hgt
  · rw [if_neg (by omega), List.getElem?_append_left hlt]
  · subst heq
    simp
  · have hlen : (o.nodes ++ [node]).length ≤ p := by
      rw [List.length_append, List.length_singleton]
      omega
    rw [if_neg (by omega), List.getElem?_eq_none hlen, List.getElem?_eq_none (by omega)]

theorem next_setNode (ht : t < o.nodes.length) :
    (o.setNode t node).next p = if p = t then node.next else o.next p := by
  rw [next, setNode]
  by_cases hp : p = t
  · subst hp
    simp [ht]
  · rw [if_neg hp, List.getElem?_set_ne (Ne.symm hp), next]

theorem index_setNode (ht : t < o.nodes.length) :
    (o.setNode t node).index p = if p = t then some node.index else o.index p := by
  rw [index, setNode]
  by_cases hp : p = t
  · subst hp
    simp [ht]
  · rw [if_neg hp, List.getElem?_set_ne (Ne.symm hp), index]

@[simp] theorem vaddrTable_setQueue {q : Queue} :
    (o.setQueue h q).vaddrTable = Function.update o.vaddrTable h q := rfl

@[simp] theorem vaddrTable_setNode : (o.setNode t node).vaddrTable = o.vaddrTable := rfl

@[simp] theorem vaddrTable_push : (o.push node).vaddrTable = o.vaddrTable := rfl

theorem deref_push : (o.push node).deref (some o.nodes.length) = .ok node := by
  simp [push, deref]

theorem deref_push_of_lt (ht : t < o.nodes.length) :
    (o.push node).deref (some t) = .ok o.nodes[t] := by
  rw [deref, push, List.getElem?_append_left ht, List.getElem?_eq_getElem ht]

theorem setNode_push {node' : Node} :
    (o.push node).setNode o.nodes.length node' = o.push node' := by
  simp [push, setNode]

end OptGlobals

theorem enqueue_first {vaddr : Addr} {counter : Nat}
    (hhead : (o.vaddrTable (hashcode vaddr)).head = none) :
    enqueue vaddr counter o = .ok ((o.push { index := counter, next := none }).setQueue
      (hashcode vaddr) { head := some o.nodes.length, tail := some o.nodes.length }) := by
  have htable : ((o.push { index := counter, next := none }).vaddrTable (hashcode vaddr)).head =
      none := hhead
  simp only [enqueue, insertNode, OptGlobals.deref_push, ok_bind, OptGlobals.setNode_push, htable]

theorem enqueue_next {vaddr : Addr} {counter p t : Nat}
    (hhead : (o.vaddrTable (hashcode vaddr)).head = some p)
    (htail : (o.vaddrTable (hashcode vaddr)).tail = some t) (ht : t < o.nodes.length) :
    enqueue vaddr counter o = .ok (((o.push { index := counter, next := none }).setNode t
      { o.nodes[t] with next := some o.nodes.length }).setQueue
      (hashcode vaddr) { head := some p, tail := some o.nodes.length }) := by
  have hhead' : ((o.push { index := counter, next := none }).vaddrTable (hashcode vaddr)).head =
      some p := hhead
  have htail' : ((o.push { index := counter, next := none }).vaddrTable (hashcode vaddr)).tail =
      some t := htail
  simp only [enqueue, insertNode, OptGlobals.deref_push, ok_bind, OptGlobals.setNode_push, hhead',
    htail', OptGlobals.deref_push_of_lt ht]

/-- The nodes are allocated in the order of the positions, so that a pointer is a position. -/
structure Enqueued (as : List Access) (o : OptGlobals) : Prop where
  length : o.nodes.length = as.length
  counter : o.vaddrCounter = as.length
  index : ∀ p < as.length, o.index p = some p
  follows : ∀ h, Follows o.next (o.vaddrTable h).head (positions h 0 as)
  tail : ∀ h, (o.vaddrTable h).tail = (positions h 0 as).getLast?

namespace Enqueued

theorem lists (he : Enqueued as o) (h : Nat) : o.Lists h (positions h 0 as) := by
  refine ⟨positions h 0 as, he.follows h, ?_, fun _ => he.tail h, ?_⟩
  · exact List.map_congr_left fun p hp => he.index p (positions_lt hp)
  · rw [he.length]
    exact length_positions_le h 0 as

/-- The other buckets keep their nodes, and so do the links between these. -/
theorem concat (he : Enqueued as o) (hlen : o'.nodes.length = as.length + 1)
    (hcounter : o'.vaddrCounter = as.length + 1)
    (hindex : ∀ p < as.length + 1, o'.index p = some p)
    (hother : ∀ h, h ≠ hashcode a.vaddr → o'.vaddrTable h = o.vaddrTable h)
    (hnext : ∀ h, h ≠ hashcode a.vaddr → ∀ p ∈ positions h 0 as, o'.next p = o.next p)
    (hfollows : Follows o'.next (o'.vaddrTable (hashcode a.vaddr)).head
      (positions (hashcode a.vaddr) 0 as ++ [as.length]))
    (htail : (o'.vaddrTable (hashcode a.vaddr)).tail = some as.length) :
    Enqueued (as ++ [a]) o' := by
  have hself : positions (hashcode a.vaddr) 0 (as ++ [a]) =
      positions (hashcode a.vaddr) 0 as ++ [as.length] := by
    rw [positions_append, positions, if_pos rfl, Nat.zero_add]
    rfl
  have hpos : ∀ h, h ≠ hashcode a.vaddr → positions h 0 (as ++ [a]) = positions h 0 as := by
    intro h hh
    rw [positions_append, positions, if_neg (Ne.symm hh), positions, List.append_nil]
  have hlength : (as ++ [a]).length = as.length + 1 := List.length_append
  refine ⟨hlen.trans hlength.symm, hcounter.trans hlength.symm, ?_, ?_, ?_⟩
  · rw [hlength]
    exact hindex
  · intro h
    by_cases hh : h = hashcode a.vaddr
    · subst hh
      rw [hself]
      exact hfollows
    · rw [hpos h hh, hother h hh]
      exact (he.follows h).congr (hnext h hh)
  · intro h
    by_cases hh : h = hashcode a.vaddr
    · subst hh
      rw [hself, List.getLast?_concat, htail]
    · rw [hpos h hh, hother h hh]
      exact he.tail h

/-- A node that is allocated now has the next position. -/
theorem index_push (he : Enqueued as o) {p : Nat} (hp : p < as.length + 1) :
    (o.push { index := o.vaddrCounter, next := none }).index p = some p := by
  rw [OptGlobals.index_push, he.length, he.counter]
  split
  · rename_i heq
    rw [heq]
  · exact he.index p (by omega)

theorem length_push (he : Enqueued as o) (node : Node) :
    (o.push node).nodes.length = as.length + 1 := by
  rw [← he.length]
  exact List.length_append

/-- The first node of its bucket. -/
theorem first (he : Enqueued as o) (a : Access)
    (hnil : positions (hashcode a.vaddr) 0 as = []) :
    ∃ o', Paging.enqueue a.vaddr o.vaddrCounter o = .ok o' ∧
      Enqueued (as ++ [a]) { o' with vaddrCounter := o'.vaddrCounter + 1 } := by
  let h := hashcode a.vaddr
  have hhead : (o.vaddrTable h).head = none := by
    have hfollows := he.follows h
    rw [hnil] at hfollows
    exact hfollows
  have hself : ∀ q : Queue, Function.update o.vaddrTable h q h = q :=
    fun q => Function.update_self ..
  refine ⟨_, enqueue_first hhead, he.concat (he.length_push _) (congrArg (· + 1) he.counter)
    (fun p => he.index_push) (fun h' hh => Function.update_of_ne hh ..)
    (fun _ _ p _ => OptGlobals.next_push rfl) ?_ ?_⟩
  · rw [hnil, List.nil_append, ← he.length]
    exact ⟨congrArg Queue.head (hself _), (OptGlobals.next_push rfl).trans OptGlobals.next_length⟩
  · rw [← he.length]
    exact congrArg Queue.tail (hself _)

/-- The last node of the bucket is linked to the new one. -/
theorem linked (he : Enqueued as o) (a : Access) {t : Nat}
    (hlast : (positions (hashcode a.vaddr) 0 as).getLast? = some t) :
    ∃ o', Paging.enqueue a.vaddr o.vaddrCounter o = .ok o' ∧
      Enqueued (as ++ [a]) { o' with vaddrCounter := o'.vaddrCounter + 1 } := by
  let h := hashcode a.vaddr
  let o₁ := o.push { index := o.vaddrCounter, next := none }
  have hmem := List.mem_of_getLast? hlast
  have ht : t < o.nodes.length := he.length ▸ positions_lt hmem
  have ht₁ : t < o₁.nodes.length := by
    rw [he.length_push]
    exact Nat.lt_succ_of_lt (positions_lt hmem)
  obtain ⟨p, hhead⟩ : ∃ p, (o.vaddrTable h).head = some p := by
    have hfollows := he.follows h
    obtain ⟨p, ptrs, hpos⟩ := List.exists_cons_of_ne_nil (List.ne_nil_of_mem hmem)
    rw [hpos] at hfollows
    exact ⟨p, hfollows.1⟩
  let o₂ := o₁.setNode t { o.nodes[t] with next := some o.nodes.length }
  have hnext : ∀ p, o₂.next p = if p = t then some o.nodes.length else o.next p := by
    intro p
    rw [OptGlobals.next_setNode ht₁, OptGlobals.next_push rfl]
  have hindex : ∀ p < as.length + 1, o₂.index p = some p := by
    intro p hp
    rw [OptGlobals.index_setNode ht₁]
    split
    · rename_i heq
      have hindex := he.index t (positions_lt hmem)
      rw [OptGlobals.index, List.getElem?_eq_getElem ht] at hindex
      rw [heq]
      exact hindex
    · exact he.index_push hp
  have hfollows : Follows o₂.next (o.vaddrTable h).head (positions h 0 as ++ [as.length]) := by
    rw [← he.length]
    refine (he.follows h).concat hlast (positions_nodup h 0 as) ?_ ?_ ?_
    · intro p _ hp
      rw [hnext, if_neg hp]
    · rw [hnext, if_pos rfl]
    · rw [hnext, if_neg (Nat.ne_of_gt ht), OptGlobals.next_length]
  have hself : ∀ q : Queue, Function.update o.vaddrTable h q h = q :=
    fun q => Function.update_self ..
  refine ⟨_, enqueue_next hhead ((he.tail h).trans hlast) ht,
    he.concat ((List.length_set ..).trans (he.length_push _)) (congrArg (· + 1) he.counter) hindex
      (fun h' hh => Function.update_of_ne hh ..) ?_ ?_ ?_⟩
  · intro h' hh p hp
    refine (hnext p).trans (if_neg ?_)
    rintro rfl
    exact hh (positions_disjoint hp hmem)
  · have hstart : (Function.update o.vaddrTable h
        { head := some p, tail := some o.nodes.length } h).head = (o.vaddrTable h).head := by
      rw [hself, hhead]
    rw [← hstart] at hfollows
    exact hfollows
  · rw [← he.length]
    exact congrArg Queue.tail (hself _)

/-- A node that is allocated now is the last one of its bucket, and the others stay as they are. -/
theorem enqueue (he : Enqueued as o) (a : Access) :
    ∃ o', Paging.enqueue a.vaddr o.vaddrCounter o = .ok o' ∧
      Enqueued (as ++ [a]) { o' with vaddrCounter := o'.vaddrCounter + 1 } := by
  cases hlast : (positions (hashcode a.vaddr) 0 as).getLast? with
  | none => exact he.first a (List.getLast?_eq_none_iff.mp hlast)
  | some t => exact he.linked a hlast

end Enqueued

/-- With memory for its nodes `insert` builds, of any trace, the queues that list the positions. -/
theorem enqueueAll_lists (trace : List Access) : ∃ o, enqueueAll trace = .ok o ∧
    o.vaddrCounter = 0 ∧ ∀ h, o.Lists h (positions h 0 trace) := by
  have hrun : ∃ o, exec enqueueNext trace .zero = .ok o ∧ Enqueued trace o := by
    induction trace using List.reverseRecOn with
    | nil => exact ⟨.zero, rfl, rfl, rfl, fun _ hp => absurd hp (Nat.not_lt_zero _), fun _ => rfl,
        fun _ => rfl⟩
    | append_singleton as a ih =>
      obtain ⟨o, ho, he⟩ := ih
      obtain ⟨o', ho', he'⟩ := he.enqueue a
      refine ⟨_, ?_, he'⟩
      rw [exec_concat, ho, ok_bind, enqueueNext, ho', ok_bind]
  obtain ⟨o, ho, he⟩ := hrun
  refine ⟨{ o with vaddrCounter := 0 }, ?_, rfl, fun h => ?_⟩
  · rw [enqueueAll, ho, ok_bind]
  · obtain ⟨ptrs, hq⟩ := he.lists h
    exact ⟨ptrs, hq.follows, hq.index, hq.tail, hq.length_le⟩

end

end Paging

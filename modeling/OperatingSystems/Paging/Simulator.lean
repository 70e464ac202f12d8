-- SUMMARY: The paging simulator: its globals, the swap file, frame allocation, find_physpage and access_mem.
import OperatingSystems.Library.Bytes
import OperatingSystems.Paging.Bitmap

/-!
# The simulator

The globals of the simulator and the functions that change them. The replacement algorithm is the
record of functions that `sim` picks by name, and the calls on the swap file are the operating
system's; both are parameters.
-/

namespace Paging

open Library Library.Run

/-! ## Globals -/

/-- `struct frame`. A pointer to a frame is its index in the coremap. -/
structure Frame where
  inUse : Bool
  pte : Option PtePtr
  frameAbove : Option Nat
  frameBelow : Option Nat
  vaddr : Addr

/-- A frame as `calloc` leaves it. -/
def Frame.zero : Frame :=
  { inUse := false, pte := none, frameAbove := none, frameBelow := none, vaddr := 0 }

/-- The globals: `alg` holds those of the replacement algorithm, `swapfd` the open swap file, and
`stderr` the messages printed so far. -/
structure Sim (σ φ : Type) where
  memsize : Nat
  pgdir : Nat → Option (Nat → PgtblEntry)
  coremap : Nat → Frame
  physmem : Memory
  swapmap : Bitmap
  swapfd : φ
  alg : σ
  hitCount : Nat
  missCount : Nat
  refCount : Nat
  evictCleanCount : Nat
  evictDirtyCount : Nat
  stderr : List String

/-- `struct functions`. -/
structure Functions (σ φ : Type) where
  init : Sim σ φ → Sim σ φ
  ref : PtePtr → Sim σ φ → Except Fault (Sim σ φ)
  evict : Sim σ φ → Except Fault (Nat × Sim σ φ)

/-- The calls on the swap file. `lseek` gives the file at the offset asked for, or `errno`; `read`
gives the bytes read and `write` the number written, or nothing for -1. -/
structure FileOps (φ : Type) where
  lseek : φ → Int → Except Nat φ
  read : φ → Nat → Option (List Byte) × φ
  write : φ → List Byte → Option Nat × φ

/-- The value that a conversion to `int` leaves. -/
def toInt (n : Int) : Int := n.bmod (2 ^ 32)

/-- `idx * SIMPAGESIZE`, an unsigned product, as the `int` it is assigned to. -/
def slotOffset (idx : Nat) : Int := toInt (idx * SIMPAGESIZE % 2 ^ 32 : Nat)

/-- `frame * SIMPAGESIZE`, the place of a frame in `physmem`. -/
def physAddr (frame : Nat) : Nat := frame * SIMPAGESIZE % 2 ^ 32

variable {σ φ : Type}

namespace Sim

/-- The page-table entry a pointer points to. An entry in a table that does not exist yet reads as
it will when the table is made. -/
def entry (s : Sim σ φ) (p : PtePtr) : PgtblEntry :=
  match s.pgdir p.dir with
  | none => .fresh
  | some pgtbl => pgtbl p.idx

/-- Assign to an entry. -/
def modifyEntry (s : Sim σ φ) (p : PtePtr) (g : PgtblEntry → PgtblEntry) : Sim σ φ :=
  let pgtbl := (s.pgdir p.dir).getD fun _ => .fresh
  let pgtbl := Function.update pgtbl p.idx (g (pgtbl p.idx))
  { s with pgdir := Function.update s.pgdir p.dir (some pgtbl) }

/-- Assign to a frame of the coremap. -/
def modifyFrame (s : Sim σ φ) (i : Nat) (g : Frame → Frame) : Sim σ φ :=
  { s with coremap := Function.update s.coremap i (g (s.coremap i)) }

/-- Print a message to `stderr`. -/
def report (s : Sim σ φ) (msg : String) : Sim σ φ := { s with stderr := s.stderr ++ [msg] }

/-- The size of `physmem`. -/
def physSize (s : Sim σ φ) : Nat := s.memsize * SIMPAGESIZE % 2 ^ 32

end Sim

/-! ## Swap -/

/-- `swap_pagein`, with what it returns. -/
def swapPagein (io : FileOps φ) (frame : Nat) (swapOffset : Int) (s : Sim σ φ) :
    Except Fault (Int × Sim σ φ) := do
  need (swapOffset ≠ INVALID_SWAP) .assertion
  let framePtr := physAddr frame
  need (framePtr + SIMPAGESIZE ≤ s.physSize) .outOfBounds
  match io.lseek s.swapfd swapOffset with
  | .error errno => .ok (-errno, s.report "swap_pagein: failed to set read position")
  | .ok fd =>
    match io.read fd SIMPAGESIZE with
    | (none, fd) => .ok (-1, { s with swapfd := fd }.report "swap_pagein: did not read whole page")
    | (some bytes, fd) =>
      -- The bytes that did come are in the frame, also when they are too few.
      let s := { s with swapfd := fd, physmem := s.physmem.store framePtr bytes }
      if bytes.length ≠ SIMPAGESIZE then
        .ok (bytes.length, s.report "swap_pagein: did not read whole page")
      else .ok (0, s)

/-- The second half of `swap_pageout`, once the page has a slot. -/
def writeSlot (io : FileOps φ) (frame : Nat) (swapOffset : Int) (s : Sim σ φ) :
    Except Fault (Int × Sim σ φ) := do
  need (swapOffset ≠ INVALID_SWAP) .assertion
  let framePtr := physAddr frame
  need (framePtr + SIMPAGESIZE ≤ s.physSize) .outOfBounds
  match io.lseek s.swapfd swapOffset with
  | .error _ => .ok (INVALID_SWAP, s.report "swap_pageout: failed to set write position")
  | .ok fd =>
    let (bytesWritten, fd) := io.write fd (s.physmem.load framePtr SIMPAGESIZE)
    if bytesWritten ≠ some SIMPAGESIZE then
      .ok (INVALID_SWAP,
        { s with swapfd := fd }.report "swap_pageout: did not write whole page")
    else .ok (swapOffset, { s with swapfd := fd })

/-- `swap_pageout`. -/
def swapPageout (io : FileOps φ) (frame : Nat) (swapOffset : Int) (s : Sim σ φ) :
    Except Fault (Int × Sim σ φ) :=
  if swapOffset = INVALID_SWAP then do
    match ← bitmapAlloc s.swapmap with
    | none =>
      .ok (INVALID_SWAP, s.report
        "swap_pageout: Could not allocate space in swapfile. Try running again with a larger swapsize.")
    | some (idx, swapmap) =>
      -- The bit stays set whatever comes of the write.
      writeSlot io frame (slotOffset idx) { s with swapmap := swapmap }
  else writeSlot io frame swapOffset s

/-! ## Frames -/

/-- The scan of `allocate_frame` for a frame that is not in use. -/
def findFree (s : Sim σ φ) : Option Nat :=
  (List.range s.memsize).find? fun i => !(s.coremap i).inUse

/-- What `allocate_frame` does to the entry and the counters once `swap_pageout` has returned. -/
def markSwapped (temp : PtePtr) (swapOffset : Int) (s : Sim σ φ) : Sim σ φ :=
  -- A page that could not be stored is marked like the others: the `exit` is commented out.
  let s := if swapOffset = INVALID_SWAP then s.report "Unable to store frame in swap file" else s
  let s := s.modifyEntry temp fun e => e.set PG_ONSWAP
  let s := s.modifyEntry temp fun e => e.flip PG_VALID
  let s := s.modifyEntry temp fun e => { e with swapOff := swapOffset }
  if (s.entry temp).dirty then { s with evictDirtyCount := s.evictDirtyCount + 1 }
  else { s with evictCleanCount := s.evictCleanCount + 1 }

/-- The part of `allocate_frame` that writes the victim out and updates its entry. -/
def evictPage (io : FileOps φ) (frame : Nat) (s : Sim σ φ) : Except Fault (Sim σ φ) :=
  match (s.coremap frame).pte with
  | none => .error .nullPointer
  | some temp => do
    let (swapOffset, s) ← swapPageout io frame (toInt (s.entry temp).swapOff) s
    .ok (markSwapped temp swapOffset s)

/-- The part of `allocate_frame` that reads the new page back, if it has a slot. -/
def fetchPage (io : FileOps φ) (frame : Nat) (p : PtePtr) (s : Sim σ φ) :
    Except Fault (Sim σ φ) :=
  if (s.entry p).swapOff ≠ INVALID_SWAP then do
    let (r, s) ← swapPagein io frame (toInt (s.entry p).swapOff) s
    .ok (if r ≠ 0 then s.report "Error: unable to retrieve frame from swap file" else s)
  else .ok s

/-- `allocate_frame`. -/
def allocateFrame (fns : Functions σ φ) (io : FileOps φ) (p : PtePtr) (s : Sim σ φ) :
    Except Fault (Nat × Sim σ φ) := do
  let (frame, s) ←
    match findFree s with
    -- A free frame is not filled from swap, whatever the entry says.
    | some i => .ok (i, s)
    | none => do
      let (frame, s) ← fns.evict s
      need (frame < s.memsize) .outOfBounds
      let s ← evictPage io frame s
      let s ← fetchPage io frame p s
      .ok (frame, s)
  .ok (frame, s.modifyFrame frame fun fr => { fr with inUse := true, pte := some p })

/-- `init_second_level`, where the page directory has no table yet. -/
def initSecondLevel (idx : Nat) (s : Sim σ φ) : Sim σ φ :=
  match s.pgdir idx with
  | some _ => s
  | none => { s with pgdir := Function.update s.pgdir idx (some fun _ => .fresh) }

/-- The bytes `init_frame` fills a frame with, outside of the address. -/
def zeroPage : List Byte := List.replicate SIMPAGESIZE 0

/-- `init_frame`. -/
def initFrame (frame : Nat) (vaddr : Addr) (s : Sim σ φ) : Except Fault (Sim σ φ) := do
  let memPtr := physAddr frame
  need (memPtr + SIMPAGESIZE ≤ s.physSize) .outOfBounds
  .ok { s with
    physmem := (s.physmem.store memPtr zeroPage).store (memPtr + 4) (leBytes 8 vaddr.toNat) }

/-! ## Accesses -/

/-- The three branches of `find_physpage`: first touch, page on swap, hit. -/
def resolve (fns : Functions σ φ) (io : FileOps φ) (p : PtePtr) (vaddr : Addr) (s : Sim σ φ) :
    Except Fault (Sim σ φ) :=
  if (s.entry p).valid = false ∧ (s.entry p).onswap = false then do
    let (f, s) ← allocateFrame fns io p s
    let s ← initFrame f vaddr s
    let s := s.modifyEntry p fun e => e.place f
    let s := s.modifyEntry p fun e => e.set PG_DIRTY
    .ok { s with missCount := s.missCount + 1 }
  else if (s.entry p).valid = false ∧ (s.entry p).onswap = true then do
    let (f, s) ← allocateFrame fns io p s
    -- This assignment also clears the dirty bit: the page is as it is on swap.
    let s := s.modifyEntry p fun e => e.place f
    .ok { s with missCount := s.missCount + 1 }
  else do
    need ((s.entry p).onswap = false) .assertion
    .ok { s with hitCount := s.hitCount + 1 }

/-- `type == 'S' || type == 'M'`. -/
def isWrite (type : Char) : Bool := type = 'S' ∨ type = 'M'

/-- What `find_physpage` does to the entry of a page in memory, before `ref_fcn`. -/
def touch (p : PtePtr) (vaddr : Addr) (type : Char) (s : Sim σ φ) : Except Fault (Sim σ φ) := do
  let s := { s with refCount := s.refCount + 1 }
  let s := s.modifyEntry p fun e => e.set PG_VALID
  let s := s.modifyEntry p fun e => e.set PG_REF
  let s := if isWrite type then s.modifyEntry p fun e => e.set PG_DIRTY else s
  let f := (s.entry p).frameNo
  need (f < s.memsize) .outOfBounds
  .ok (s.modifyFrame f fun fr => { fr with vaddr := vaddr })

/-- `find_physpage`, with the place in `physmem` that it returns a pointer to. -/
def findPhyspage (fns : Functions σ φ) (io : FileOps φ) (vaddr : Addr) (type : Char)
    (s : Sim σ φ) : Except Fault (Nat × Sim σ φ) := do
  let idx := pgdirIndex vaddr
  need (idx < PTRS_PER_PGDIR) .outOfBounds
  let s := initSecondLevel idx s
  let p := pteOf vaddr
  let s ← resolve fns io p vaddr s
  let s ← touch p vaddr type s
  let s ← fns.ref p s
  -- The entry is read once more, after the replacement algorithm has run.
  .ok (physAddr (s.entry p).frameNo, s)

/-- The version counter of the page at a place in memory. -/
def Sim.version (s : Sim σ φ) (ptr : Nat) : Nat := ofLeBytes (s.physmem.load ptr 4)

/-- The address field of the page at a place in memory. -/
def Sim.checkaddr (s : Sim σ φ) (ptr : Nat) : Nat := ofLeBytes (s.physmem.load (ptr + 4) 8)

/-- A line of the trace. -/
structure Access where
  type : Char
  vaddr : Addr
deriving DecidableEq, Repr

/-- `access_mem`. -/
def accessMem (fns : Functions σ φ) (io : FileOps φ) (a : Access) (s : Sim σ φ) :
    Except Fault (Sim σ φ) := do
  let (memptr, s) ← findPhyspage fns io a.vaddr a.type s
  need (memptr + SIMPAGESIZE ≤ s.physSize) .outOfBounds
  let s := if s.checkaddr memptr ≠ a.vaddr.toNat then
    s.report "Error, simulated page returned by pagetable lookup doese not have expected value."
    else s
  if isWrite a.type then
    .ok { s with physmem := s.physmem.store memptr (leBytes 4 (s.version memptr + 1)) }
  else .ok s

/-- The globals before `init_fcn`: the frames zero, the memory as `malloc` gives it. -/
def Sim.zero (memsize : Nat) (swapmap : Bitmap) (physmem : Memory) (swapfd : φ) (alg : σ) :
    Sim σ φ :=
  { memsize, pgdir := fun _ => none, coremap := fun _ => .zero, physmem, swapmap, swapfd, alg,
    hitCount := 0, missCount := 0, refCount := 0, evictCleanCount := 0, evictDirtyCount := 0,
    stderr := [] }

/-- What `main` does before the trace. -/
def start (fns : Functions σ φ) (memsize swapsize : Nat) (physmem : Memory) (swapfd : φ) (alg : σ) :
    Except Fault (Sim σ φ) := do
  let swapmap ← bitmapCreate swapsize
  .ok (fns.init (.zero memsize swapmap physmem swapfd alg))

/-- `main` up to the end of the trace. -/
def simulate (fns : Functions σ φ) (io : FileOps φ) (memsize swapsize : Nat) (physmem : Memory)
    (swapfd : φ) (alg : σ) (trace : List Access) : Except Fault (Sim σ φ) :=
  start fns memsize swapsize physmem swapfd alg >>= exec (accessMem fns io) trace

end Paging

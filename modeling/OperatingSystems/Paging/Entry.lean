-- SUMMARY: Virtual addresses and page-table entries of the paging simulator, with the status bits of an entry.
import Mathlib.Data.Nat.Basic
import Mathlib.Tactic.IntervalCases

/-!
# Addresses and page-table entries

A page-table entry packs a frame number and four status bits into one 32-bit word. The lemmas of
this file say what each assignment of the simulator to that word does to each part of it, so that
nothing above reasons about bits.
-/

namespace Paging

/-! ## Addresses -/

abbrev Addr := BitVec 64

def PAGE_SHIFT : Nat := 12
def PGDIR_SHIFT : Nat := 24
def PTRS_PER_PGDIR : Nat := 4096
def PTRS_PER_PGTBL : Nat := 4096
def PGTBL_MASK : Nat := PTRS_PER_PGTBL - 1
def SIMPAGESIZE : Nat := 16
def INVALID_SWAP : Int := -1

/-- `PGDIR_INDEX`, as `find_physpage` keeps it: in an unsigned int. -/
def pgdirIndex (vaddr : Addr) : Nat := (vaddr.toNat >>> PGDIR_SHIFT) % 2 ^ 32

/-- `PGTBL_INDEX`. -/
def pgtblIndex (vaddr : Addr) : Nat := (vaddr.toNat >>> PAGE_SHIFT) &&& PGTBL_MASK

/-- A pointer to a page-table entry: its place in the page directory and in the second-level
table there. Each page has one entry, so this also names the page. -/
structure PtePtr where
  dir : Nat
  idx : Nat
deriving DecidableEq, Repr

/-- The entry that translates an address. -/
def pteOf (vaddr : Addr) : PtePtr := ⟨pgdirIndex vaddr, pgtblIndex vaddr⟩

theorem pgtblIndex_lt (vaddr : Addr) : pgtblIndex vaddr < PTRS_PER_PGTBL := by
  have h := @Nat.and_le_right (vaddr.toNat >>> PAGE_SHIFT) PGTBL_MASK
  simp only [pgtblIndex, PGTBL_MASK, PTRS_PER_PGTBL] at h ⊢
  omega

/-- Addresses below 2^36 stay inside the page directory. -/
theorem pgdirIndex_lt {vaddr : Addr} (h : vaddr.toNat < 2 ^ 36) :
    pgdirIndex vaddr < PTRS_PER_PGDIR := by
  simp only [pgdirIndex, PGDIR_SHIFT, PTRS_PER_PGDIR, Nat.shiftRight_eq_div_pow]
  omega

/-- Two page-aligned addresses below 2^36 with the same entry are equal. -/
theorem pteOf_injective {v w : Addr} (hv : v.toNat < 2 ^ 36) (hw : w.toNat < 2 ^ 36)
    (hv' : v.toNat % 4096 = 0) (hw' : w.toNat % 4096 = 0) (h : pteOf v = pteOf w) : v = w := by
  simp only [pteOf, PtePtr.mk.injEq, pgdirIndex, pgtblIndex, PGDIR_SHIFT, PAGE_SHIFT, PGTBL_MASK,
    PTRS_PER_PGTBL, Nat.shiftRight_eq_div_pow] at h
  rw [show (4096 - 1 : Nat) = 2 ^ 12 - 1 by norm_num, Nat.and_two_pow_sub_one_eq_mod,
    Nat.and_two_pow_sub_one_eq_mod] at h
  apply BitVec.eq_of_toNat_eq
  omega

/-! ## Entries -/

abbrev Word := BitVec 32

def PG_VALID : Word := 0x1
def PG_DIRTY : Word := 0x2
def PG_REF : Word := 0x4
def PG_ONSWAP : Word := 0x8

/-- `pgtbl_entry_t`. -/
structure PgtblEntry where
  frame : Word
  swapOff : Int
deriving DecidableEq, Repr

namespace PgtblEntry

/-- An entry as `init_second_level` leaves it. -/
def fresh : PgtblEntry := { frame := 0, swapOff := INVALID_SWAP }

def valid (e : PgtblEntry) : Bool := e.frame &&& PG_VALID ≠ 0
def dirty (e : PgtblEntry) : Bool := e.frame &&& PG_DIRTY ≠ 0
def ref (e : PgtblEntry) : Bool := e.frame &&& PG_REF ≠ 0
def onswap (e : PgtblEntry) : Bool := e.frame &&& PG_ONSWAP ≠ 0

/-- `frame >> PAGE_SHIFT`. -/
def frameNo (e : PgtblEntry) : Nat := (e.frame >>> PAGE_SHIFT).toNat

/-! ### The bits of the word -/

/-- Testing a word against a mask with one bit reads that bit. -/
theorem and_twoPow_ne_zero {w : Word} {i : Nat} (hi : i < 32) :
    (w &&& BitVec.twoPow 32 i ≠ 0) ↔ w.getLsbD i = true := by
  rw [BitVec.and_twoPow]
  cases w.getLsbD i with
  | false => simp
  | true =>
    simp only [if_true, iff_true]
    intro h
    have := congrArg (fun x => BitVec.getLsbD x i) h
    simp [hi] at this

theorem PG_VALID_eq : PG_VALID = BitVec.twoPow 32 0 := by decide
theorem PG_DIRTY_eq : PG_DIRTY = BitVec.twoPow 32 1 := by decide
theorem PG_REF_eq : PG_REF = BitVec.twoPow 32 2 := by decide
theorem PG_ONSWAP_eq : PG_ONSWAP = BitVec.twoPow 32 3 := by decide

variable {e : PgtblEntry}

theorem valid_eq : e.valid = e.frame.getLsbD 0 := by
  rw [Bool.eq_iff_iff, valid, decide_eq_true_iff, PG_VALID_eq, and_twoPow_ne_zero (by omega)]

theorem dirty_eq : e.dirty = e.frame.getLsbD 1 := by
  rw [Bool.eq_iff_iff, dirty, decide_eq_true_iff, PG_DIRTY_eq, and_twoPow_ne_zero (by omega)]

theorem ref_eq : e.ref = e.frame.getLsbD 2 := by
  rw [Bool.eq_iff_iff, ref, decide_eq_true_iff, PG_REF_eq, and_twoPow_ne_zero (by omega)]

theorem onswap_eq : e.onswap = e.frame.getLsbD 3 := by
  rw [Bool.eq_iff_iff, onswap, decide_eq_true_iff, PG_ONSWAP_eq, and_twoPow_ne_zero (by omega)]

@[simp] theorem getElem_PG_VALID (i : Nat) (hi : i < 32) : PG_VALID[i] = decide (i = 0) := by
  rw [PG_VALID_eq, BitVec.getElem_twoPow]

@[simp] theorem getElem_PG_DIRTY (i : Nat) (hi : i < 32) : PG_DIRTY[i] = decide (i = 1) := by
  rw [PG_DIRTY_eq, BitVec.getElem_twoPow]

@[simp] theorem getElem_PG_REF (i : Nat) (hi : i < 32) : PG_REF[i] = decide (i = 2) := by
  rw [PG_REF_eq, BitVec.getElem_twoPow]

@[simp] theorem getElem_PG_ONSWAP (i : Nat) (hi : i < 32) : PG_ONSWAP[i] = decide (i = 3) := by
  rw [PG_ONSWAP_eq, BitVec.getElem_twoPow]

/-! ### The assignments to the word -/

/-- `e.frame | flag`. -/
def set (e : PgtblEntry) (flag : Word) : PgtblEntry := { e with frame := e.frame ||| flag }

/-- `e.frame ^ flag`. -/
def flip (e : PgtblEntry) (flag : Word) : PgtblEntry := { e with frame := e.frame ^^^ flag }

/-- `f << PAGE_SHIFT`: a frame number with all flags clear. -/
def place (e : PgtblEntry) (f : Nat) : PgtblEntry :=
  { e with frame := BitVec.ofNat 32 f <<< PAGE_SHIFT }

variable {flag : Word} {f : Nat}

@[simp] theorem swapOff_set : (e.set flag).swapOff = e.swapOff := rfl
@[simp] theorem swapOff_flip : (e.flip flag).swapOff = e.swapOff := rfl
@[simp] theorem swapOff_place : (e.place f).swapOff = e.swapOff := rfl

@[simp] theorem valid_set : (e.set flag).valid = (e.valid || flag.getLsbD 0) := by
  simp [valid_eq, set]
@[simp] theorem dirty_set : (e.set flag).dirty = (e.dirty || flag.getLsbD 1) := by
  simp [dirty_eq, set]
@[simp] theorem ref_set : (e.set flag).ref = (e.ref || flag.getLsbD 2) := by
  simp [ref_eq, set]
@[simp] theorem onswap_set : (e.set flag).onswap = (e.onswap || flag.getLsbD 3) := by
  simp [onswap_eq, set]

@[simp] theorem valid_flip : (e.flip flag).valid = (e.valid ^^ flag.getLsbD 0) := by
  simp [valid_eq, flip]
@[simp] theorem dirty_flip : (e.flip flag).dirty = (e.dirty ^^ flag.getLsbD 1) := by
  simp [dirty_eq, flip]
@[simp] theorem ref_flip : (e.flip flag).ref = (e.ref ^^ flag.getLsbD 2) := by
  simp [ref_eq, flip]
@[simp] theorem onswap_flip : (e.flip flag).onswap = (e.onswap ^^ flag.getLsbD 3) := by
  simp [onswap_eq, flip]

@[simp] theorem valid_place : (e.place f).valid = false := by simp [valid_eq, place, PAGE_SHIFT]
@[simp] theorem dirty_place : (e.place f).dirty = false := by simp [dirty_eq, place, PAGE_SHIFT]
@[simp] theorem ref_place : (e.place f).ref = false := by simp [ref_eq, place, PAGE_SHIFT]
@[simp] theorem onswap_place : (e.place f).onswap = false := by simp [onswap_eq, place, PAGE_SHIFT]

@[simp] theorem PG_VALID_shift : PG_VALID >>> PAGE_SHIFT = 0 := by decide
@[simp] theorem PG_DIRTY_shift : PG_DIRTY >>> PAGE_SHIFT = 0 := by decide
@[simp] theorem PG_REF_shift : PG_REF >>> PAGE_SHIFT = 0 := by decide
@[simp] theorem PG_ONSWAP_shift : PG_ONSWAP >>> PAGE_SHIFT = 0 := by decide

/-- Flags live below the frame number. -/
@[simp] theorem frameNo_set (h : flag >>> PAGE_SHIFT = 0) : (e.set flag).frameNo = e.frameNo := by
  simp [frameNo, set, BitVec.ushiftRight_or_distrib, h]

@[simp] theorem frameNo_flip (h : flag >>> PAGE_SHIFT = 0) : (e.flip flag).frameNo = e.frameNo := by
  simp [frameNo, flip, BitVec.ushiftRight_xor_distrib, h]

/-- The 20 high bits hold every frame number below 2^20. -/
theorem frameNo_place (hf : f < 2 ^ 20) : (e.place f).frameNo = f := by
  simp only [frameNo, place, PAGE_SHIFT, BitVec.toNat_ushiftRight, BitVec.toNat_shiftLeft,
    BitVec.toNat_ofNat, Nat.shiftLeft_eq, Nat.shiftRight_eq_div_pow]
  omega

@[simp] theorem fresh_valid : fresh.valid = false := by decide
@[simp] theorem fresh_onswap : fresh.onswap = false := by decide
@[simp] theorem fresh_swapOff : fresh.swapOff = INVALID_SWAP := rfl

/-! ### Swapping out and touching -/

/-- What eviction leaves of the entry of a page in memory. -/
def swapOut (e : PgtblEntry) (off : Int) : PgtblEntry :=
  { (e.set PG_ONSWAP).flip PG_VALID with swapOff := off }

/-- What an access leaves of the entry of a page in memory. -/
def mark (e : PgtblEntry) (write : Bool) : PgtblEntry :=
  if write then ((e.set PG_VALID).set PG_REF).set PG_DIRTY else (e.set PG_VALID).set PG_REF

variable {off : Int} {write : Bool}

@[simp] theorem valid_swapOut : (e.swapOut off).valid = !e.valid := by
  change ((e.set PG_ONSWAP).flip PG_VALID).valid = _
  simp
@[simp] theorem dirty_swapOut : (e.swapOut off).dirty = e.dirty := by
  change ((e.set PG_ONSWAP).flip PG_VALID).dirty = _
  simp
@[simp] theorem ref_swapOut : (e.swapOut off).ref = e.ref := by
  change ((e.set PG_ONSWAP).flip PG_VALID).ref = _
  simp
@[simp] theorem onswap_swapOut : (e.swapOut off).onswap = true := by
  change ((e.set PG_ONSWAP).flip PG_VALID).onswap = _
  simp
@[simp] theorem swapOff_swapOut : (e.swapOut off).swapOff = off := rfl
@[simp] theorem frameNo_swapOut : (e.swapOut off).frameNo = e.frameNo := by
  change ((e.set PG_ONSWAP).flip PG_VALID).frameNo = _
  simp

@[simp] theorem valid_mark : (e.mark write).valid = true := by cases write <;> simp [mark]
@[simp] theorem ref_mark : (e.mark write).ref = true := by cases write <;> simp [mark]
@[simp] theorem dirty_mark : (e.mark write).dirty = (e.dirty || write) := by
  cases write <;> simp [mark]
@[simp] theorem onswap_mark : (e.mark write).onswap = e.onswap := by cases write <;> simp [mark]
@[simp] theorem swapOff_mark : (e.mark write).swapOff = e.swapOff := by cases write <;> simp [mark]
@[simp] theorem frameNo_mark : (e.mark write).frameNo = e.frameNo := by cases write <;> simp [mark]

/-- Two entries that agree but for the reference bit. -/
structure SameButRef (e e' : PgtblEntry) : Prop where
  valid : e'.valid = e.valid
  dirty : e'.dirty = e.dirty
  onswap : e'.onswap = e.onswap
  frameNo : e'.frameNo = e.frameNo
  swapOff : e'.swapOff = e.swapOff

theorem SameButRef.refl (e : PgtblEntry) : e.SameButRef e := ⟨rfl, rfl, rfl, rfl, rfl⟩

theorem SameButRef.flip (e : PgtblEntry) : e.SameButRef (e.flip PG_REF) := by
  constructor <;> simp

theorem frameNo_lt : e.frameNo < 2 ^ 20 := by
  have := e.frame.isLt
  simp only [frameNo, PAGE_SHIFT, BitVec.toNat_ushiftRight, Nat.shiftRight_eq_div_pow]
  omega

end PgtblEntry

end Paging

-- SUMMARY: The mapped disk of the ext2 tools: its bytes and structures, the globals of a tool, and checked access.
import OperatingSystems.Library.Bytes
import OperatingSystems.Library.Process

/-!
# The disk

A tool maps the image into memory and works on it through pointers, which are offsets into the
mapping here. An access outside the mapping, like everything else that C leaves undefined, stops the
tool with `fault`. What a tool has written by then stays on the disk.
-/

namespace Ext2

open Library Library.Process

/-! ## Constants -/

def EXT2_BLOCK_SIZE : Nat := 1024
def INDIRECT_BLK_INDEX : Nat := 11
def EXT2_ROOT_INO : Nat := 2
def EXT2_GOOD_OLD_FIRST_INO : Nat := 11
def EXT2_S_IFLNK : Nat := 0xA000
def EXT2_S_IFREG : Nat := 0x8000
def EXT2_S_IFDIR : Nat := 0x4000
def EXT2_FT_UNKNOWN : Nat := 0
def EXT2_FT_REG_FILE : Nat := 1
def EXT2_FT_DIR : Nat := 2
def EXT2_FT_SYMLINK : Nat := 7

def ENOENT : Nat := 2
def ENOMEM : Nat := 12
def EEXIST : Nat := 17
def EISDIR : Nat := 21
def EINVAL : Nat := 22
def ENOSPC : Nat := 28

/-! ## Unsigned arithmetic -/

/-- The difference of two unsigned ints. -/
def sub32 (a b : Nat) : Nat := if b ≤ a then a - b else 2 ^ 32 - (b - a)

/-- The sum of two unsigned ints. -/
def add32 (a b : Nat) : Nat := (a + b) % 2 ^ 32

/-- An unsigned int taken as an int. -/
def signed (v : Nat) : Int := if v < 2 ^ 31 then v else v - 2 ^ 32

theorem signed_of_lt {v : Nat} (h : v < 2 ^ 31) : signed v = v := if_pos h

theorem sub32_of_le {a b : Nat} (h : b ≤ a) : sub32 a b = a - b := if_pos h

theorem add32_of_lt {a b : Nat} (h : a + b < 2 ^ 32) : add32 a b = a + b := Nat.mod_eq_of_lt h

def BYTE_INDEX (num : Nat) : Nat := sub32 num 1 / 8
def BIT_INDEX (num : Nat) : Nat := sub32 num 1 % 8

/-- The number of bytes that an entry with a name of this length is taken to need. -/
def TRUE_FILE_SIZE (len : Nat) : Nat :=
  if len ≤ 12 then 12 else if len % 4 ≠ 0 then len + (4 - len % 4) else len

/-! ## Globals -/

/-- How a tool stops before its end: by `exit`, by a failed `assert`, by something that C leaves
undefined (an access outside the mapping, a pointer or array index out of place), or never. -/
inductive Halt where
  | exit (status : Nat)
  | assertion
  | fault
  | diverges
deriving DecidableEq, Repr

structure Bitmap where
  sysBm : Nat
  numBitsAvail : Nat
  availByteIndex : Nat
  availBitIndex : Nat
  currAvailNum : Nat
deriving DecidableEq, Repr

/-- Globals that nothing has been assigned to are zero. -/
def Bitmap.zero : Bitmap :=
  { sysBm := 0, numBitsAvail := 0, availByteIndex := 0, availBitIndex := 0, currAvailNum := 0 }

/-- The two bitmaps: `&ind_bmap` and `&blk_bmap`. -/
inductive Bm where
  | ind
  | blk
deriving DecidableEq, Repr

/-- The mapped bytes, the length of the mapping, and the globals. -/
structure State where
  disk : Memory
  size : Nat
  indsCount : Nat
  blksCount : Nat
  indTable : Nat
  indBmap : Bitmap
  blkBmap : Bitmap

namespace State

def bmap (s : State) : Bm → Bitmap
  | .ind => s.indBmap
  | .blk => s.blkBmap

def setBmap (s : State) (b : Bm) (bm : Bitmap) : State :=
  match b with
  | .ind => { s with indBmap := bm }
  | .blk => { s with blkBmap := bm }

variable {s : State} {b b' : Bm} {bm : Bitmap}

@[simp] theorem bmap_setBmap : (s.setBmap b bm).bmap b = bm := by cases b <;> rfl

theorem bmap_setBmap_of_ne (h : b' ≠ b) : (s.setBmap b bm).bmap b' = s.bmap b' := by
  cases b <;> cases b' <;> first | rfl | exact absurd rfl h

@[simp] theorem disk_setBmap : (s.setBmap b bm).disk = s.disk := by cases b <;> rfl

@[simp] theorem size_setBmap : (s.setBmap b bm).size = s.size := by cases b <;> rfl

@[simp] theorem indTable_setBmap : (s.setBmap b bm).indTable = s.indTable := by cases b <;> rfl

@[simp] theorem bmap_disk {m : Memory} : ({ s with disk := m } : State).bmap b = s.bmap b := by
  cases b <;> rfl

end State

/-- A tool, or a part of one. -/
abbrev Tool (α : Type) : Type := Process Halt State α

/-! ## Access to the mapping -/

/-- The bytes at an address. -/
def loadBytes (a n : Nat) : Tool (List Byte) := do
  let s ← get
  if a + n ≤ s.size then pure (Memory.load s.disk a n) else halt .fault

def storeBytes (a : Nat) (bs : List Byte) : Tool Unit := do
  let s ← get
  if a + bs.length ≤ s.size then modify fun s => { s with disk := Memory.store s.disk a bs }
  else halt .fault

/-- The little-endian word of `w` bytes at an address. -/
def word (m : Memory) (w a : Nat) : Nat := ofLeBytes (Memory.load m a w)

def loadWord (w a : Nat) : Tool Nat := do
  let bs ← loadBytes a w
  pure (ofLeBytes bs)

def storeWord (w a v : Nat) : Tool Unit := storeBytes a (leBytes w v)

def loadByte (a : Nat) : Tool Byte := do
  let s ← get
  if a < s.size then pure (s.disk a) else halt .fault

def storeByte (a : Nat) (v : Byte) : Tool Unit := do
  let s ← get
  if a < s.size then modify fun s => { s with disk := Function.update s.disk a v }
  else halt .fault

section

variable {s : State} {a n w v : Nat} {bs : List Byte} {byte : Byte}

theorem run_loadWord (h : a + w ≤ s.size) : (loadWord w a).run s = .done (word s.disk w a) s := by
  have hload : (loadBytes a w).run s = .done (Memory.load s.disk a w) s := by
    simp [loadBytes, h]
  rw [loadWord, bind_done hload, run_pure, word]

theorem run_loadWord_fault (h : ¬a + w ≤ s.size) : (loadWord w a).run s = .halted .fault s := by
  have hload : (loadBytes a w).run s = .halted .fault s := by
    simp [loadBytes, h]
  rw [loadWord, bind_halted hload]

theorem run_storeBytes (h : a + bs.length ≤ s.size) :
    (storeBytes a bs).run s = .done () { s with disk := Memory.store s.disk a bs } := by
  simp [storeBytes, h]

theorem run_storeWord (h : a + w ≤ s.size) :
    (storeWord w a v).run s = .done () { s with disk := Memory.store s.disk a (leBytes w v) } :=
  run_storeBytes (by rwa [length_leBytes])

theorem run_loadWord_bind {α : Type} {f : Nat → Tool α} (h : a + w ≤ s.size) :
    (loadWord w a >>= f).run s = (f (word s.disk w a)).run s :=
  bind_done (run_loadWord h)

theorem run_storeWord_bind {α : Type} {f : Unit → Tool α} (h : a + w ≤ s.size) :
    (storeWord w a v >>= f).run s = (f ()).run { s with disk := Memory.store s.disk a (leBytes w v) } :=
  bind_done (run_storeWord h)

theorem run_storeBytes_fault (h : ¬a + bs.length ≤ s.size) :
    (storeBytes a bs).run s = .halted .fault s := by
  simp [storeBytes, h]

theorem run_loadByte (h : a < s.size) : (loadByte a).run s = .done (s.disk a) s := by
  simp [loadByte, h]

theorem run_loadByte_fault (h : ¬a < s.size) : (loadByte a).run s = .halted .fault s := by
  simp [loadByte, h]

theorem run_storeByte (h : a < s.size) :
    (storeByte a byte).run s = .done () { s with disk := Function.update s.disk a byte } := by
  simp [storeByte, h]

/-! ### Access that has gone well -/

variable {s' : State}

theorem loadWord_done (h : (loadWord w a).run s = .done v s') :
    a + w ≤ s.size ∧ v = word s.disk w a ∧ s' = s := by
  by_cases hin : a + w ≤ s.size
  · rw [run_loadWord hin] at h
    cases h
    exact ⟨hin, rfl, rfl⟩
  · rw [run_loadWord_fault hin] at h
    cases h

theorem storeBytes_done (h : (storeBytes a bs).run s = .done () s') :
    a + bs.length ≤ s.size ∧ s' = { s with disk := Memory.store s.disk a bs } := by
  by_cases hin : a + bs.length ≤ s.size
  · rw [run_storeBytes hin] at h
    cases h
    exact ⟨hin, rfl⟩
  · rw [run_storeBytes_fault hin] at h
    cases h

theorem loadByte_done (h : (loadByte a).run s = .done byte s') :
    a < s.size ∧ byte = s.disk a ∧ s' = s := by
  by_cases hin : a < s.size
  · rw [run_loadByte hin] at h
    cases h
    exact ⟨hin, rfl, rfl⟩
  · rw [run_loadByte_fault hin] at h
    cases h

theorem storeByte_done (h : (storeByte a byte).run s = .done () s') :
    a < s.size ∧ s' = { s with disk := Function.update s.disk a byte } := by
  by_cases hin : a < s.size
  · rw [run_storeByte hin] at h
    cases h
    exact ⟨hin, rfl⟩
  · rw [storeByte, run_get_bind, if_neg hin] at h
    cases h

theorem readOnly_loadBytes (a n : Nat) : ReadOnly (loadBytes a n) :=
  .bind .get fun _ => .ite (.pure _) (.halt _)

theorem readOnly_loadWord (w a : Nat) : ReadOnly (loadWord w a) :=
  .bind (readOnly_loadBytes a w) fun _ => .pure _

theorem readOnly_loadByte (a : Nat) : ReadOnly (loadByte a) :=
  .bind .get fun _ => .ite (.pure _) (.halt _)

end

end Ext2

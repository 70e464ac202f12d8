-- SUMMARY: The swap file as a store of bytes, in general and as the file that an open descriptor refers to.
import OperatingSystems.Paging.Stages

/-!
# The swap file

The documented behaviour of `lseek`, `read` and `write` on a regular file with room on the disk: a
file is a run of bytes with a position in it.
-/

namespace Paging

open Library

/-- File operations that act as a store of bytes and do not fail. Nothing is said of reads past
the end of the file. -/
structure ByteFile (φ : Type) extends FileOps φ where
  pos : φ → Nat
  size : φ → Nat
  bytes : φ → Memory
  lseek_spec : ∀ fd off, 0 ≤ off → ∃ fd', lseek fd off = .ok fd' ∧
    pos fd' = off.toNat ∧ size fd' = size fd ∧ bytes fd' = bytes fd
  read_spec : ∀ fd n, pos fd + n ≤ size fd → ∃ fd',
    read fd n = (some ((bytes fd).load (pos fd) n), fd') ∧
      size fd' = size fd ∧ bytes fd' = bytes fd
  write_spec : ∀ fd bs, ∃ fd', write fd bs = (some bs.length, fd') ∧
    size fd' = max (size fd) (pos fd + bs.length) ∧ bytes fd' = (bytes fd).store (pos fd) bs

variable {φ σ : Type}

/-- Such a file takes a page at every offset of a slot. -/
theorem ByteFile.stores (file : ByteFile φ) (s : Sim σ φ) (f : Nat) {off : Int} (hoff : 0 ≤ off) :
    s.stores file.toFileOps f off = true := by
  obtain ⟨fd, hseek, _⟩ := file.lseek_spec s.swapfd off hoff
  obtain ⟨fd', hwrite, _⟩ := file.write_spec fd (s.physmem.load (physAddr f) SIMPAGESIZE)
  simp [Sim.stores, hseek, hwrite, Memory.length_load]

/-- What an open descriptor of a regular file refers to. -/
structure OpenFile where
  pos : Nat
  size : Nat
  bytes : Memory

def EINVAL : Nat := 22

/-- The file that `mkstemp` leaves open. -/
def OpenFile.empty : OpenFile := { pos := 0, size := 0, bytes := fun _ => 0 }

/-- The system calls on a regular file. -/
def regularFile : ByteFile OpenFile where
  lseek fd off := if 0 ≤ off then .ok { fd with pos := off.toNat } else .error EINVAL
  read fd n :=
    let k := min n (fd.size - fd.pos)
    (some (fd.bytes.load fd.pos k), { fd with pos := fd.pos + k })
  write fd bs := (some bs.length,
    { pos := fd.pos + bs.length, size := max fd.size (fd.pos + bs.length),
      bytes := fd.bytes.store fd.pos bs })
  pos := OpenFile.pos
  size := OpenFile.size
  bytes := OpenFile.bytes
  lseek_spec fd off h := ⟨_, if_pos h, rfl, rfl, rfl⟩
  read_spec fd n h := by
    have hmin : min n (fd.size - fd.pos) = n := by omega
    refine ⟨{ fd with pos := fd.pos + n }, ?_, rfl, rfl⟩
    simp only [hmin]
  write_spec fd bs := ⟨_, rfl, rfl, rfl⟩

end Paging

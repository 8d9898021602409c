import LddSamples.Library.CArith
import LddSamples.Library.Outcome

/-!
# The kernel services the drivers call

Error numbers, the memory faults that end a run, the allocator, and what the
environment decides in one call: pending signals, allocation failures, and how
much of a user buffer is accessible.
-/

namespace LddSamples.Kernel

def EIO : ℤ := 5
def EAGAIN : ℤ := 11
def EFAULT : ℤ := 14
def ENOMEM : ℤ := 12
def EBUSY : ℤ := 16
def EINVAL : ℤ := 22
def ENOTTY : ℤ := 25
def ERESTARTSYS : ℤ := 512
def EIOCBQUEUED : ℤ := 529

def PAGE_SIZE : ℕ := 4096

theorem PAGE_SIZE_eq : PAGE_SIZE = 4096 := rfl

/-- The largest count that the VFS passes to a read or write. -/
def MAX_RW_COUNT : ℕ := 2147479552

theorem MAX_RW_COUNT_eq : MAX_RW_COUNT = 2147479552 := rfl

/-! The places that a seek counts from. -/

def SEEK_SET : ℕ := 0
def SEEK_CUR : ℕ := 1
def SEEK_END : ℕ := 2

/-- A byte of kernel memory; `none` has not been initialised since it was
allocated. -/
abbrev Cell := Option UInt8

inductive Fault
  | divideError
  | nullDereference
  | indexOutOfBounds
  | copyOutOfBounds
  | memsetOutOfBounds
  deriving DecidableEq

/-- The number of a granted request stands for the address of its object. -/
structure Heap where
  requests : ℕ
  freed : List ℕ

/-- What the environment decides. `copied n` is how many of `n` bytes a user
copy transfers before it meets an inaccessible page. -/
structure Env where
  signalled : Bool
  grants : ℕ → Bool
  copied : ℕ → ℕ

def Env.calm : Env := ⟨false, fun _ => true, fun n => n⟩

def kmalloc (env : Env) (heap : Heap) : Option ℕ × Heap :=
  (if env.grants heap.requests then some heap.requests else none,
    { heap with requests := heap.requests + 1 })

def kfree (heap : Heap) (addr : ℕ) : Heap := { heap with freed := heap.freed ++ [addr] }

@[simp] theorem calm_signalled : Env.calm.signalled = false := rfl

@[simp] theorem calm_copied (n : ℕ) : Env.calm.copied n = n := rfl

@[simp] theorem kmalloc_calm (heap : Heap) :
    kmalloc Env.calm heap = (some heap.requests, { heap with requests := heap.requests + 1 }) :=
  rfl

/-- The bytes `[offset, offset + count)` lie inside an object of `size` bytes;
an empty range touches nothing. -/
def Inside (size : ℕ) (offset : ℤ) (count : ℕ) : Prop :=
  count = 0 ∨ (0 ≤ offset ∧ offset + count ≤ size)

instance (size : ℕ) (offset : ℤ) (count : ℕ) : Decidable (Inside size offset count) :=
  inferInstanceAs (Decidable (_ ∨ _))

/-- `atomic_inc`, on an `int` that wraps. -/
def atomicInc (v : ℤ) : ℤ := CArith.toInt32 (v + 1)

/-- `atomic_dec`; `atomic_dec_and_test` compares its result with 0. -/
def atomicDec (v : ℤ) : ℤ := CArith.toInt32 (v - 1)

theorem atomicInc_emod (v : ℤ) : atomicInc v % 4294967296 = (v + 1) % 4294967296 := by
  unfold atomicInc CArith.toInt32
  omega

theorem atomicDec_emod (v : ℤ) : atomicDec v % 4294967296 = (v - 1) % 4294967296 := by
  unfold atomicDec CArith.toInt32
  omega

theorem atomicInc_of_lt {v : ℤ} (hlow : 0 ≤ v) (hhigh : v < CArith.INT_MAX) :
    atomicInc v = v + 1 := CArith.toInt32_of_mem (by omega) (by omega)

theorem atomicDec_of_mem {v : ℤ} (hlow : 0 ≤ v) (hhigh : v ≤ CArith.INT_MAX) :
    atomicDec v = v - 1 := CArith.toInt32_of_mem (by omega) (by omega)

end LddSamples.Kernel

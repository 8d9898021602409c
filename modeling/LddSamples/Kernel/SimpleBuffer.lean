import LddSamples.Kernel.Basic
import LddSamples.Library.ByteMap

/-!
# Copies between a user and a kernel buffer at a file position

`simple_read_from_buffer` and `simple_write_to_buffer`: the position is checked, the
count is cut down to what the buffer has left, and the position advances by what was
copied.
-/

namespace LddSamples.Kernel

open ByteMap

structure SimpleRead where
  ret : ℤ
  off : ℤ
  out : List UInt8

structure SimpleWrite where
  ret : ℤ
  off : ℤ
  buffer : ℕ → UInt8

def simpleReadFromBuffer (env : Env) (count : ℕ) (off : ℤ) (buffer : ℕ → UInt8)
    (available : ℕ) : SimpleRead :=
  if off < 0 then ⟨-EINVAL, off, []⟩
  else if available ≤ off ∨ count = 0 then ⟨0, off, []⟩
  else
    let n := min count (available - off).toNat
    let copied := min n (env.copied n)
    if copied = 0 then ⟨-EFAULT, off, []⟩
    else ⟨copied, off + copied, window buffer off.toNat copied⟩

/-- `copy_from_user` pads what it could not read with zeros. -/
def simpleWriteToBuffer (env : Env) (buffer : ℕ → UInt8) (available : ℕ) (off : ℤ)
    (bytes : List UInt8) : SimpleWrite :=
  if off < 0 then ⟨-EINVAL, off, buffer⟩
  else if available ≤ off ∨ bytes.length = 0 then ⟨0, off, buffer⟩
  else
    let n := min bytes.length (available - off).toNat
    let copied := min n (env.copied n)
    let buffer := overwrite buffer off.toNat (bytes.take copied ++ List.replicate (n - copied) 0)
    if copied = 0 then ⟨-EFAULT, off, buffer⟩ else ⟨copied, off + copied, buffer⟩

/-- A read from the start delivers the first bytes of the buffer. -/
theorem simpleReadFromBuffer_start (count : ℕ) (buffer : ℕ → UInt8) (available : ℕ) :
    simpleReadFromBuffer Env.calm count 0 buffer available =
      ⟨(min count available : ℕ), (min count available : ℕ),
        window buffer 0 (min count available)⟩ := by
  unfold simpleReadFromBuffer
  rw [if_neg (lt_irrefl 0)]
  by_cases hnone : (available : ℤ) ≤ 0 ∨ count = 0
  · have hmin : min count available = 0 := by omega
    rw [if_pos hnone, hmin]
    rfl
  · have hmin : min count ((available : ℤ) - 0).toNat = min count available := by omega
    have hpos : min count available ≠ 0 := by omega
    simp only [if_neg hnone, calm_copied, min_self, hmin, if_neg hpos, zero_add, Int.toNat_zero]

/-- A write past the end, or of nothing, returns 0. -/
theorem simpleWriteToBuffer_idle (env : Env) (buffer : ℕ → UInt8) {available : ℕ} {off : ℤ}
    {bytes : List UInt8} (hoff : 0 ≤ off) (hidle : available ≤ off ∨ bytes.length = 0) :
    simpleWriteToBuffer env buffer available off bytes = ⟨0, off, buffer⟩ := by
  rw [simpleWriteToBuffer, if_neg hoff.not_gt, if_pos hidle]

/-- Any other write returns how many bytes it stored, or that there were none. -/
theorem simpleWriteToBuffer_ret (env : Env) (buffer : ℕ → UInt8) {available n : ℕ} {off : ℤ}
    {bytes : List UInt8} (hoff : 0 ≤ off) (hidle : ¬ (available ≤ off ∨ bytes.length = 0))
    (hn : n = min (min bytes.length (available - off).toNat)
      (env.copied (min bytes.length (available - off).toNat))) :
    ∃ after, simpleWriteToBuffer env buffer available off bytes =
      if n = 0 then ⟨-EFAULT, off, after⟩ else ⟨n, off + n, after⟩ := by
  simp only [simpleWriteToBuffer, if_neg hoff.not_gt, if_neg hidle, ← hn]
  exact ⟨_, rfl⟩

theorem simpleWriteToBuffer_inside (buffer : ℕ → UInt8) {available p : ℕ} {bytes : List UInt8}
    (hfit : p + bytes.length ≤ available) :
    simpleWriteToBuffer Env.calm buffer available p bytes =
      ⟨bytes.length, (p + bytes.length : ℕ), overwrite buffer p bytes⟩ := by
  unfold simpleWriteToBuffer
  rw [if_neg (by omega)]
  by_cases hnone : (available : ℤ) ≤ p ∨ bytes.length = 0
  · obtain rfl : bytes = [] := List.length_eq_zero_iff.mp (by omega)
    rw [if_pos hnone, overwrite_nil]
    rfl
  · have hmin : min bytes.length ((available : ℤ) - p).toNat = bytes.length := by omega
    have hpos : bytes.length ≠ 0 := by omega
    simp only [if_neg hnone, calm_copied, min_self, hmin, if_neg hpos, Int.toNat_natCast,
      List.take_length, Nat.sub_self, List.replicate_zero, List.append_nil, Nat.cast_add]

end LddSamples.Kernel

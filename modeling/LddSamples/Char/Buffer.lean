import LddSamples.Kernel.Basic
import LddSamples.Library.ByteMap

/-!
# The buffer of the character drivers

`chardrv_read`, `chardrv_write` and `chardrv_lseek` on `membuff`, as the drivers of
the char labs share them. `k` is the number of bytes that the user copy transfers
when it is asked for more.
-/

namespace LddSamples.Char

open Kernel CArith Outcome ByteMap

/-- `(size_t) (32*PAGE_SIZE)`. -/
def MEMBUFF_SIZE : ℕ := 32 * PAGE_SIZE

theorem MEMBUFF_SIZE_eq : MEMBUFF_SIZE = 131072 := rfl

/-- `(lbuf + *ppos) > membuff_size`, in 64 unsigned bits. -/
def BeyondEnd (lbuf : ℕ) (pos : ℤ) : Prop :=
  MEMBUFF_SIZE < (lbuf + toUInt64 pos) % 18446744073709551616

instance (lbuf : ℕ) (pos : ℤ) : Decidable (BeyondEnd lbuf pos) :=
  inferInstanceAs (Decidable (_ < _))

/-- The value returned, `*ppos` afterwards, and what the user buffer received. -/
structure ReadResult where
  ret : ℤ
  pos : ℤ
  out : List UInt8

structure WriteResult where
  ret : ℤ
  pos : ℤ
  membuff : ℕ → UInt8

/-- `lbuf - copy_to_user(..)`, kept in an `int`. -/
def transferred (lbuf k : ℕ) : ℤ := toInt32 (lbuf - (lbuf - min k lbuf : ℕ))

def chardrvRead (membuff : ℕ → UInt8) (lbuf : ℕ) (pos : ℤ) (k : ℕ) : Except Fault ReadResult :=
  if BeyondEnd lbuf pos then .ok ⟨0, pos, []⟩
  else do
    require .copyOutOfBounds (Inside MEMBUFF_SIZE pos lbuf)
    let rbytes := transferred lbuf k
    .ok ⟨rbytes, toInt64 (pos + rbytes), window membuff pos.toNat (min k lbuf)⟩

def chardrvWrite (membuff : ℕ → UInt8) (buf : List UInt8) (pos : ℤ) (k : ℕ) :
    Except Fault WriteResult :=
  if BeyondEnd buf.length pos then .ok ⟨0, pos, membuff⟩
  else do
    require .copyOutOfBounds (Inside MEMBUFF_SIZE pos buf.length)
    let wbytes := transferred buf.length k
    .ok ⟨wbytes, toInt64 (pos + wbytes),
      overwrite membuff pos.toNat (buf.take (min k buf.length))⟩

/-- The two clamps at the end of `chardrv_lseek`. The first one compares a
`loff_t` with a `size_t`, so it is unsigned. -/
def clampSeek (pos : ℤ) : ℤ :=
  let pos := if toUInt64 pos < MEMBUFF_SIZE then pos else MEMBUFF_SIZE
  if pos ≥ 0 then pos else 0

/-- The returned value and the new `file->f_pos`. -/
def chardrvLseek (fPos offset : ℤ) (orig : ℕ) : ℤ × ℤ :=
  if orig = SEEK_SET then
    (clampSeek (toInt64 offset), clampSeek (toInt64 offset))
  else if orig = SEEK_CUR then
    (clampSeek (toInt64 (fPos + offset)), clampSeek (toInt64 (fPos + offset)))
  else if orig = SEEK_END then
    (clampSeek (toInt64 (MEMBUFF_SIZE + offset)), clampSeek (toInt64 (MEMBUFF_SIZE + offset)))
  else (-EINVAL, fPos)

/-! ## Positions inside the buffer -/

theorem beyondEnd_iff {lbuf p : ℕ} (hp : p ≤ MEMBUFF_SIZE) (hlbuf : lbuf ≤ MAX_RW_COUNT) :
    BeyondEnd lbuf p ↔ MEMBUFF_SIZE < p + lbuf := by
  have hsize := MEMBUFF_SIZE_eq
  have hmax := MAX_RW_COUNT_eq
  rw [BeyondEnd, toUInt64_natCast (by omega), Nat.mod_eq_of_lt (by omega), Nat.add_comm]

theorem transferred_eq {lbuf : ℕ} (hlbuf : lbuf ≤ MAX_RW_COUNT) (k : ℕ) :
    transferred lbuf k = (min k lbuf : ℕ) := by
  have hmax := MAX_RW_COUNT_eq
  have hint := INT_MAX_eq
  rw [transferred, toInt32_of_mem (by omega) (by omega)]
  omega

theorem chardrvRead_eq (membuff : ℕ → UInt8) {lbuf p : ℕ} (hp : p ≤ MEMBUFF_SIZE)
    (hlbuf : lbuf ≤ MAX_RW_COUNT) (k : ℕ) :
    chardrvRead membuff lbuf p k =
      if p + lbuf ≤ MEMBUFF_SIZE then
        .ok ⟨(min k lbuf : ℕ), (p + min k lbuf : ℕ), window membuff p (min k lbuf)⟩
      else .ok ⟨0, p, []⟩ := by
  have hsize := MEMBUFF_SIZE_eq
  unfold chardrvRead
  by_cases hfit : p + lbuf ≤ MEMBUFF_SIZE
  · have hinside : Inside MEMBUFF_SIZE (p : ℤ) lbuf := .inr ⟨Int.natCast_nonneg p, by omega⟩
    have hpos : toInt64 ((p : ℤ) + (min k lbuf : ℕ)) = (p + min k lbuf : ℕ) := by
      rw [toInt64_of_mem (by omega) (by omega), Int.natCast_add]
    rw [if_neg (by rw [beyondEnd_iff hp hlbuf]; omega), if_pos hfit]
    simp only [require_of hinside, ok_bind, transferred_eq hlbuf, hpos, Int.toNat_natCast]
  · rw [if_pos (by rw [beyondEnd_iff hp hlbuf]; omega), if_neg hfit]

theorem chardrvWrite_eq (membuff : ℕ → UInt8) {buf : List UInt8} {p : ℕ} (hp : p ≤ MEMBUFF_SIZE)
    (hbuf : buf.length ≤ MAX_RW_COUNT) (k : ℕ) :
    chardrvWrite membuff buf p k =
      if p + buf.length ≤ MEMBUFF_SIZE then
        .ok ⟨(min k buf.length : ℕ), (p + min k buf.length : ℕ),
          overwrite membuff p (buf.take (min k buf.length))⟩
      else .ok ⟨0, p, membuff⟩ := by
  have hsize := MEMBUFF_SIZE_eq
  unfold chardrvWrite
  by_cases hfit : p + buf.length ≤ MEMBUFF_SIZE
  · have hinside : Inside MEMBUFF_SIZE (p : ℤ) buf.length :=
      .inr ⟨Int.natCast_nonneg p, by omega⟩
    have hpos : toInt64 ((p : ℤ) + (min k buf.length : ℕ)) = (p + min k buf.length : ℕ) := by
      rw [toInt64_of_mem (by omega) (by omega), Int.natCast_add]
    rw [if_neg (by rw [beyondEnd_iff hp hbuf]; omega), if_pos hfit]
    simp only [require_of hinside, ok_bind, transferred_eq hbuf, hpos, Int.toNat_natCast]
  · rw [if_pos (by rw [beyondEnd_iff hp hbuf]; omega), if_neg hfit]

theorem clampSeek_mem (x : ℤ) :
    0 ≤ clampSeek (toInt64 x) ∧ clampSeek (toInt64 x) ≤ MEMBUFF_SIZE := by
  have hsize := MEMBUFF_SIZE_eq
  simp only [clampSeek, hsize]
  unfold toUInt64 toInt64
  split_ifs <;> omega

theorem chardrvLseek_mem {fPos : ℤ} (hlow : 0 ≤ fPos) (hhigh : fPos ≤ MEMBUFF_SIZE) (offset : ℤ)
    (orig : ℕ) :
    0 ≤ (chardrvLseek fPos offset orig).2 ∧ (chardrvLseek fPos offset orig).2 ≤ MEMBUFF_SIZE := by
  unfold chardrvLseek
  split_ifs
  · exact clampSeek_mem _
  · exact clampSeek_mem _
  · exact clampSeek_mem _
  · exact ⟨hlow, hhigh⟩

end LddSamples.Char

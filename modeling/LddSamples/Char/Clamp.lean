import LddSamples.Char.Buffer
import LddSamples.Dma.Generic

/-!
# Where the seeks of the character drivers end

`chardrv_lseek` and `mycdrv_generic_lseek` clamp the target of a seek at both ends. The
upper clamp comes first and compares with a `size_t`, so it has already moved a negative
target to the size when the lower clamp looks at it.
-/

namespace LddSamples.Char.Clamp

open Kernel CArith

inductive Whence
  | seekSet
  | seekCur
  | seekEnd

def Whence.orig : Whence → ℕ
  | .seekSet => SEEK_SET
  | .seekCur => SEEK_CUR
  | .seekEnd => SEEK_END

/-- Where a seek on a file of `size` bytes aims. -/
def Whence.target (size : ℕ) (fPos offset : ℤ) : Whence → ℤ
  | .seekSet => offset
  | .seekCur => fPos + offset
  | .seekEnd => size + offset

/-- The position in `[0, size]` next to the target. -/
def clamped (size : ℕ) (target : ℤ) : ℤ := max 0 (min target size)

/-- The values of a `loff_t`. -/
def Loff (x : ℤ) : Prop := -9223372036854775808 ≤ x ∧ x < 9223372036854775808

variable {size : ℕ} {x : ℤ}

/-- The two clamps of the drivers, on a file of `size` bytes. -/
def clampSeek (size : ℕ) (pos : ℤ) : ℤ :=
  let pos := if toUInt64 pos < size then pos else size
  if pos ≥ 0 then pos else 0

theorem clampSeek_of_nonneg (hx : Loff x) (hlow : 0 ≤ x) : clampSeek size x = clamped size x := by
  have hcast := toUInt64_of_mem hlow (by have := hx.2; omega)
  simp only [clampSeek, clamped]
  split_ifs <;> omega

/-- As a `size_t` a negative target lies beyond every size. -/
theorem clampSeek_of_neg (hsize : size < 9223372036854775808) (hx : Loff x) (hneg : x < 0) :
    clampSeek size x = size := by
  have hcast : size < toUInt64 x := by
    have hlow := hx.1
    unfold toUInt64
    omega
  simp only [clampSeek, if_neg (Nat.not_lt.mpr hcast.le)]
  exact if_pos (Int.natCast_nonneg size)

theorem clampSeek_eq_clamped_iff (hpos : 0 < size) (hsize : size < 9223372036854775808)
    (hx : Loff x) : clampSeek size x = clamped size x ↔ 0 ≤ x := by
  constructor
  · intro heq
    by_contra hneg
    rw [clampSeek_of_neg hsize hx (Int.not_le.mp hneg)] at heq
    unfold clamped at heq
    omega
  · exact clampSeek_of_nonneg hx

/-! ## The two seeks -/

/-- What `chardrv_lseek` and `mycdrv_generic_lseek` have in common. -/
def lseek (size : ℕ) (fPos offset : ℤ) (orig : ℕ) : ℤ × ℤ :=
  if orig = SEEK_SET then
    (clampSeek size (toInt64 offset), clampSeek size (toInt64 offset))
  else if orig = SEEK_CUR then
    (clampSeek size (toInt64 (fPos + offset)), clampSeek size (toInt64 (fPos + offset)))
  else if orig = SEEK_END then
    (clampSeek size (toInt64 (size + offset)), clampSeek size (toInt64 (size + offset)))
  else (-EINVAL, fPos)

theorem chardrvLseek_eq_lseek : chardrvLseek = lseek MEMBUFF_SIZE := rfl

theorem mycdrvGenericLseek_eq_lseek : Dma.mycdrvGenericLseek = lseek Dma.RAMDISK_SIZE := rfl

theorem lseek_eq (w : Whence) {fPos offset : ℤ} (hx : Loff (w.target size fPos offset)) :
    lseek size fPos offset w.orig =
      (clampSeek size (w.target size fPos offset), clampSeek size (w.target size fPos offset)) := by
  have hwrap := toInt64_of_mem hx.1 hx.2
  cases w with
  | seekSet => exact congrArg (fun x => (clampSeek size x, clampSeek size x)) hwrap
  | seekCur => exact congrArg (fun x => (clampSeek size x, clampSeek size x)) hwrap
  | seekEnd => exact congrArg (fun x => (clampSeek size x, clampSeek size x)) hwrap

/-- The seek returns the target clamped into the file, and moves there. -/
def Clamps (size : ℕ) (lseek : ℤ → ℤ → ℕ → ℤ × ℤ) (w : Whence) (fPos offset : ℤ) : Prop :=
  lseek fPos offset w.orig =
    (clamped size (w.target size fPos offset), clamped size (w.target size fPos offset))

theorem lseek_clamps_iff (hpos : 0 < size) (hsize : size < 9223372036854775808) (w : Whence)
    {fPos offset : ℤ} (hx : Loff (w.target size fPos offset)) :
    Clamps size (lseek size) w fPos offset ↔ 0 ≤ w.target size fPos offset := by
  rw [Clamps, lseek_eq w hx, Prod.mk.injEq, and_self]
  exact clampSeek_eq_clamped_iff hpos hsize hx

/-- Both seeks clamp a target exactly when it is not negative. -/
theorem seeks_clamp_iff (w : Whence) (fPos offset : ℤ) :
    (Loff (w.target MEMBUFF_SIZE fPos offset) →
      (Clamps MEMBUFF_SIZE chardrvLseek w fPos offset ↔
        0 ≤ w.target MEMBUFF_SIZE fPos offset)) ∧
    (Loff (w.target Dma.RAMDISK_SIZE fPos offset) →
      (Clamps Dma.RAMDISK_SIZE Dma.mycdrvGenericLseek w fPos offset ↔
        0 ≤ w.target Dma.RAMDISK_SIZE fPos offset)) := by
  rw [chardrvLseek_eq_lseek, mycdrvGenericLseek_eq_lseek]
  exact ⟨lseek_clamps_iff (by decide) (by decide) w, lseek_clamps_iff (by decide) (by decide) w⟩

theorem seeks_clamp_iff_back_one :
    (Clamps MEMBUFF_SIZE chardrvLseek .seekEnd 0 (-1) ↔ (0 : ℤ) ≤ (131072 : ℕ) + -1) ∧
      (Clamps Dma.RAMDISK_SIZE Dma.mycdrvGenericLseek .seekEnd 0 (-1) ↔
        (0 : ℤ) ≤ (65536 : ℕ) + -1) :=
  ⟨(seeks_clamp_iff .seekEnd 0 (-1)).1 ⟨by decide, by decide⟩,
    (seeks_clamp_iff .seekEnd 0 (-1)).2 ⟨by decide, by decide⟩⟩

/-- One byte back from the start of the file leads to its end. -/
theorem before_start_not_clamped :
    chardrvLseek 0 (-1) SEEK_CUR = (131072, 131072) ∧
      ¬ Clamps MEMBUFF_SIZE chardrvLseek .seekCur 0 (-1) ∧
      Dma.mycdrvGenericLseek 0 (-1) SEEK_CUR = (65536, 65536) ∧
      ¬ Clamps Dma.RAMDISK_SIZE Dma.mycdrvGenericLseek .seekCur 0 (-1) := by
  refine ⟨by decide, ?_, by decide, ?_⟩
  · unfold Clamps
    decide
  · unfold Clamps
    decide

end LddSamples.Char.Clamp

import LddSamples.Kernel.Basic
import LddSamples.Library.ByteMap
import LddSamples.Library.Decimal

/-!
# sprintf into the page of a reader

The conversions `%i` and `%li` are `Decimal.text`, with a width `Decimal.padded`; here are
the store of the finished text, and how long the text of an `int` or a `long` can be.
-/

namespace LddSamples.Kernel

open CArith Outcome ByteMap Decimal

/-- `sprintf` of a finished text into the page, with its terminator. -/
def sprintf (page : ℕ → UInt8) (buf : ℕ) (bytes : List UInt8) : Except Fault (ℕ → UInt8) := do
  require .copyOutOfBounds (buf + (bytes.length + 1) ≤ PAGE_SIZE)
  .ok (overwrite page buf (bytes ++ [0]))

theorem sprintf_eq (page : ℕ → UInt8) (buf : ℕ) (bytes : List UInt8)
    (hfit : buf + (bytes.length + 1) ≤ PAGE_SIZE) :
    ∃ page', sprintf page buf bytes = .ok page' ∧
      window page' 0 (buf + bytes.length) = window page 0 buf ++ bytes := by
  refine ⟨_, by rw [sprintf, require_of hfit, ok_bind], ?_⟩
  rw [window_overwrite_end _ _ (by simp), List.take_left]

theorem sprintf_ok (page : ℕ → UInt8) (buf : ℕ) (bytes : List UInt8)
    (hfit : buf + (bytes.length + 1) ≤ PAGE_SIZE) : ∃ page', sprintf page buf bytes = .ok page' :=
  (sprintf_eq page buf bytes hfit).imp fun _ h => h.1

theorem zero_int : -2147483648 ≤ (0 : ℤ) ∧ (0 : ℤ) ≤ INT_MAX := by decide

theorem empty_comm : ([] : List UInt8).length ≤ 15 := Nat.zero_le _

theorem text_int_length {v : ℤ} (hv : -2147483648 ≤ v ∧ v ≤ INT_MAX) : (text v).length ≤ 11 := by
  apply text_length_le (by omega)
  unfold INT_MAX at hv
  omega

theorem text_long_length (x : ℤ) : (text (toInt64 x)).length ≤ 20 := by
  apply text_length_le (by omega)
  unfold toInt64
  omega

end LddSamples.Kernel

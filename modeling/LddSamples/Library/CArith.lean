import Mathlib.Tactic

/-!
# Machine integers of a 64-bit C target

Signed and unsigned integers are kept as `ℤ` and `ℕ`, and every conversion or
arithmetic result that C reduces to a width is reduced explicitly. Signed
overflow wraps, which is what `-fno-strict-overflow` builds provide.
-/

namespace CArith

/-- The value of an integer converted to a `signed char`. -/
def toInt8 (x : ℤ) : ℤ := (x + 128) % 256 - 128

/-- The value of an integer converted to a 32-bit `int`. -/
def toInt32 (x : ℤ) : ℤ := (x + 2147483648) % 4294967296 - 2147483648

def toInt64 (x : ℤ) : ℤ :=
  (x + 9223372036854775808) % 18446744073709551616 - 9223372036854775808

def toUInt32 (x : ℤ) : ℕ := (x % 4294967296).toNat

def toUInt64 (x : ℤ) : ℕ := (x % 18446744073709551616).toNat

/-- The value of an integer converted to an `unsigned short`. -/
def toUInt16 (x : ℤ) : ℕ := (x % 65536).toNat

def INT_MAX : ℤ := 2147483647

theorem INT_MAX_eq : INT_MAX = 2147483647 := rfl

theorem toInt32_of_mem {x : ℤ} (hlow : -2147483648 ≤ x) (hhigh : x ≤ INT_MAX) :
    toInt32 x = x := by
  unfold INT_MAX at hhigh
  unfold toInt32
  omega

theorem toInt32_eq_toInt32_iff {x y : ℤ} :
    toInt32 x = toInt32 y ↔ x % 4294967296 = y % 4294967296 := by
  unfold toInt32
  omega

@[simp] theorem toInt32_toInt32_add (x y : ℤ) : toInt32 (toInt32 x + y) = toInt32 (x + y) := by
  unfold toInt32
  omega

theorem toInt32_idem (x : ℤ) : toInt32 (toInt32 x) = toInt32 x := by
  simpa using toInt32_toInt32_add x 0

/-- Truncation to `int` keeps a sign bit, not the sign of the source. -/
theorem toInt32_nonneg_iff {x : ℤ} : 0 ≤ toInt32 x ↔ x % 4294967296 < 2147483648 := by
  unfold toInt32
  omega

theorem toInt64_of_mem {x : ℤ} (hlow : -9223372036854775808 ≤ x)
    (hhigh : x < 9223372036854775808) : toInt64 x = x := by
  unfold toInt64
  omega

theorem toUInt32_of_mem {x : ℤ} (hlow : 0 ≤ x) (hhigh : x ≤ INT_MAX) :
    (toUInt32 x : ℤ) = x := by
  unfold INT_MAX at hhigh
  unfold toUInt32
  omega

/-- Truncation to `int` depends on the low bits only. -/
@[simp] theorem toInt32_toUInt64 (x : ℤ) : toInt32 (toUInt64 x) = toInt32 x := by
  unfold toInt32 toUInt64
  omega

theorem toUInt32_natCast {n : ℕ} (h : n < 4294967296) : toUInt32 n = n := by
  unfold toUInt32
  omega

theorem toUInt64_natCast {n : ℕ} (h : n < 18446744073709551616) : toUInt64 n = n := by
  unfold toUInt64
  omega

theorem toUInt64_of_mem {x : ℤ} (hlow : 0 ≤ x) (hhigh : x < 18446744073709551616) :
    (toUInt64 x : ℤ) = x := by
  unfold toUInt64
  omega

/-- The quotient of a C division, which truncates; `none` is a divide error. -/
def quot (a b : ℤ) : Option ℤ := if b = 0 then none else some (a.tdiv b)

def rem (a b : ℤ) : Option ℤ := if b = 0 then none else some (a.tmod b)

@[simp] theorem quot_eq_some_iff {a b c : ℤ} : quot a b = some c ↔ b ≠ 0 ∧ a.tdiv b = c := by
  unfold quot
  split <;> simp_all

@[simp] theorem rem_eq_some_iff {a b c : ℤ} : rem a b = some c ↔ b ≠ 0 ∧ a.tmod b = c := by
  unfold rem
  split <;> simp_all

theorem quot_natCast {a b : ℕ} (hb : 0 < b) : quot a b = some ((a / b : ℕ) : ℤ) := by
  rw [quot_eq_some_iff]
  exact ⟨by omega, (Int.ofNat_tdiv a b).symm⟩

theorem rem_natCast {a b : ℕ} (hb : 0 < b) : rem a b = some ((a % b : ℕ) : ℤ) := by
  rw [rem_eq_some_iff]
  exact ⟨by omega, (Int.ofNat_tmod a b).symm⟩

end CArith

import Mathlib.Data.List.TakeWhile
import Mathlib.Data.Nat.Digits.Lemmas
import Mathlib.Tactic

/-!
# Decimal text, as `printk` writes it and `sscanf` reads it

The digits of a number and the number of a string of digits, both most significant
digit first; the text of an integer; and the scan of a `%d`, which stops at the first
byte that is no digit.
-/

namespace Decimal

def digit (d : ℕ) : UInt8 := UInt8.ofNat (48 + d)

def isDigit (b : UInt8) : Bool := decide (48 ≤ b.toNat ∧ b.toNat ≤ 57)

/-- `isspace` of the kernel, whose table has the no-break space of Latin-1 too. -/
def isSpace (b : UInt8) : Bool :=
  decide (b.toNat = 32 ∨ (9 ≤ b.toNat ∧ b.toNat ≤ 13) ∨ b.toNat = 160)

def decimal (n : ℕ) : List UInt8 :=
  if n = 0 then [digit 0] else ((Nat.digits 10 n).map digit).reverse

def value (bytes : List UInt8) : ℕ := Nat.ofDigits 10 (bytes.reverse.map fun b => b.toNat - 48)

/-- The output of `%d`. -/
def text (v : ℤ) : List UInt8 := if v < 0 then 45 :: decimal v.natAbs else decimal v.natAbs

/-- The output of `%<w>d`: spaces in front make up the width. -/
def padded (w : ℕ) (v : ℤ) : List UInt8 := (text v).leftpad w 32

/-- The optional sign in front of a number. The `vsscanf` of the kernel takes a `-` only; a
`+`, which the C library takes too, is no number there. -/
def sign : List UInt8 → ℤ × List UInt8
  | [] => (1, [])
  | b :: rest => if b = 45 then (-1, rest) else (1, b :: rest)

/-- The input of `%d` in the kernel: white space, a sign, and at least one digit. -/
def scanInt (bytes : List UInt8) : Option ℤ :=
  let (s, rest) := sign (bytes.dropWhile isSpace)
  if (rest.takeWhile isDigit).isEmpty then none else some (s * value (rest.takeWhile isDigit))

/-- The scan comes to an end within these bytes. -/
def Stops (bytes : List UInt8) : Prop :=
  (sign (bytes.dropWhile isSpace)).2.dropWhile isDigit ≠ []

instance (bytes : List UInt8) : Decidable (Stops bytes) :=
  inferInstanceAs (Decidable (_ ≠ _))

/-! ## Digits -/

theorem toNat_digit {d : ℕ} (hd : d < 10) : (digit d).toNat = 48 + d := by
  simp only [digit, UInt8.toNat_ofNat']
  omega

theorem isDigit_digit {d : ℕ} (hd : d < 10) : isDigit (digit d) = true := by
  simp only [isDigit, toNat_digit hd]
  exact decide_eq_true ⟨by omega, by omega⟩

theorem isDigit_of_mem_decimal {n : ℕ} {b : UInt8} (hb : b ∈ decimal n) : isDigit b = true := by
  unfold decimal at hb
  split at hb
  · rw [List.mem_singleton.mp hb]
    exact isDigit_digit (by omega)
  · obtain ⟨d, hd, rfl⟩ := List.mem_map.mp (List.mem_reverse.mp hb)
    exact isDigit_digit (Nat.digits_lt_base (by omega) hd)

theorem decimal_ne_nil (n : ℕ) : decimal n ≠ [] := by
  unfold decimal
  split
  · exact List.cons_ne_nil _ _
  · next hn => simpa [Nat.digits_eq_nil_iff_eq_zero] using hn

theorem decimal_length_le {n k : ℕ} (hk : 0 < k) (hn : n < 10 ^ k) : (decimal n).length ≤ k := by
  unfold decimal
  split
  · exact hk
  · simpa using (Nat.digits_length_le_iff (by omega) n).mpr hn

@[simp] theorem value_nil : value [] = 0 := rfl

theorem value_append (xs ys : List UInt8) :
    value (xs ++ ys) = value xs * 10 ^ ys.length + value ys := by
  simp only [value, List.reverse_append, List.map_append, Nat.ofDigits_append, List.length_map,
    List.length_reverse]
  ring

theorem value_decimal (n : ℕ) : value (decimal n) = n := by
  unfold decimal
  split
  · next hn =>
      rw [hn]
      rfl
  · have hdigits : (Nat.digits 10 n).map (fun d => (digit d).toNat - 48) = Nat.digits 10 n := by
      refine (List.map_congr_left fun d hd => ?_).trans (List.map_id _)
      rw [toNat_digit (Nat.digits_lt_base (by omega) hd)]
      simp
    simp only [value, List.reverse_reverse, List.map_map]
    exact (congrArg _ hdigits).trans (Nat.ofDigits_digits 10 n)

/-! ## Signs -/

theorem text_length_le {v : ℤ} {k : ℕ} (hk : 0 < k) (hv : v.natAbs < 10 ^ k) :
    (text v).length ≤ k + 1 := by
  have hlen := decimal_length_le hk hv
  unfold text
  split
  · simpa using hlen
  · omega

theorem padded_length (w : ℕ) (v : ℤ) : (padded w v).length = max w (text v).length :=
  List.length_leftpad

theorem decimal_first (n : ℕ) : ∃ b rest, decimal n = b :: rest ∧ isDigit b = true := by
  obtain ⟨b, rest, h⟩ := List.exists_cons_of_ne_nil (decimal_ne_nil n)
  exact ⟨b, rest, h, isDigit_of_mem_decimal (by rw [h]; exact List.mem_cons_self)⟩

theorem isSpace_of_isDigit {b : UInt8} (hb : isDigit b = true) : isSpace b = false := by
  simp only [isDigit, decide_eq_true_eq] at hb
  simp only [isSpace, decide_eq_false_iff_not]
  omega

theorem sign_of_isDigit {b : UInt8} (hb : isDigit b = true) (rest : List UInt8) :
    sign (b :: rest) = (1, b :: rest) := by
  have hminus : b ≠ 45 := by
    rintro rfl
    exact absurd hb (by decide)
  simp only [sign, if_neg hminus]

/-- White space and a sign are taken off the text of a number, and nothing else. -/
theorem sign_text_append (v : ℤ) (rest : List UInt8) :
    sign ((text v ++ rest).dropWhile isSpace) =
      (if v < 0 then -1 else 1, decimal v.natAbs ++ rest) := by
  obtain ⟨b, digits, hdecimal, hb⟩ := decimal_first v.natAbs
  unfold text
  split
  · rfl
  · rw [hdecimal, List.cons_append, List.dropWhile_cons_of_neg (by simp [isSpace_of_isDigit hb]),
      sign_of_isDigit hb]

/-- What is scanned behind a number: the digits that follow it belong to it. -/
theorem scanInt_text_append (v : ℤ) (rest : List UInt8) :
    scanInt (text v ++ rest) =
      some (v * 10 ^ (rest.takeWhile isDigit).length +
        (if v < 0 then -1 else 1) * value (rest.takeWhile isDigit)) := by
  have hall : ∀ b ∈ decimal v.natAbs, isDigit b = true := fun b hb => isDigit_of_mem_decimal hb
  have hne : decimal v.natAbs ++ rest.takeWhile isDigit ≠ [] :=
    List.append_ne_nil_of_left_ne_nil (decimal_ne_nil _) _
  unfold scanInt
  rw [sign_text_append]
  simp only [List.takeWhile_append_of_pos hall, List.isEmpty_iff, if_neg hne, value_append,
    value_decimal, Option.some.injEq]
  push_cast
  split
  · next hv =>
      rw [abs_of_neg hv]
      ring
  · next hv =>
      rw [abs_of_nonneg (Int.not_lt.mp hv)]
      ring

theorem scanInt_text (v : ℤ) : scanInt (text v) = some v := by
  simpa using scanInt_text_append v []

theorem text_injective {v w : ℤ} (h : text v = text w) : v = w := by
  have hscan := scanInt_text v
  rw [h, scanInt_text] at hscan
  exact (Option.some.inj hscan).symm

/-! ## Where a scan ends -/

theorem dropWhile_append_of_ne_nil {p : UInt8 → Bool} {xs : List UInt8} (ys : List UInt8)
    (h : xs.dropWhile p ≠ []) : (xs ++ ys).dropWhile p = xs.dropWhile p ++ ys := by
  rw [List.dropWhile_append, if_neg (by simpa using h)]

theorem takeWhile_append_of_dropWhile {p : UInt8 → Bool} {xs : List UInt8} (ys : List UInt8)
    (h : xs.dropWhile p ≠ []) : (xs ++ ys).takeWhile p = xs.takeWhile p := by
  induction xs with
  | nil => exact absurd rfl h
  | cons x xs ih =>
      by_cases hx : p x = true
      · rw [List.dropWhile_cons_of_pos hx] at h
        rw [List.cons_append, List.takeWhile_cons_of_pos hx, List.takeWhile_cons_of_pos hx, ih h]
      · rw [List.cons_append, List.takeWhile_cons_of_neg hx, List.takeWhile_cons_of_neg hx]

theorem sign_append {bytes : List UInt8} (rest : List UInt8) (h : bytes ≠ []) :
    sign (bytes ++ rest) = ((sign bytes).1, (sign bytes).2 ++ rest) := by
  cases bytes with
  | nil => exact absurd rfl h
  | cons b bytes =>
      simp only [List.cons_append, sign]
      split_ifs <;> rfl

/-- Nothing behind a scan that has stopped is looked at. -/
theorem scanInt_append {bytes : List UInt8} (rest : List UInt8) (h : Stops bytes) :
    scanInt (bytes ++ rest) = scanInt bytes := by
  have hskip : bytes.dropWhile isSpace ≠ [] := by
    intro hnil
    rw [Stops, hnil] at h
    exact h rfl
  simp only [scanInt, dropWhile_append_of_ne_nil rest hskip, sign_append rest hskip,
    takeWhile_append_of_dropWhile rest h]

/-- A digit behind a scan that has not stopped becomes the last one of the number. -/
theorem scanInt_append_digit {bytes : List UInt8} (h : ¬ Stops bytes) {d : ℕ} (hd : d < 10) :
    scanInt (bytes ++ [digit d, 0]) =
      some ((sign (bytes.dropWhile isSpace)).1 *
        (10 * value (sign (bytes.dropWhile isSpace)).2 + d : ℕ)) := by
  have hdigit := isDigit_digit hd
  have hskip : (bytes ++ [digit d, 0]).dropWhile isSpace =
      bytes.dropWhile isSpace ++ [digit d, 0] := by
    rw [List.dropWhile_append]
    split
    · next hnil =>
        rw [List.isEmpty_iff.mp hnil, List.nil_append]
        exact List.dropWhile_cons_of_neg (by simp [isSpace_of_isDigit hdigit])
    · rfl
  have hsign : sign (bytes.dropWhile isSpace ++ [digit d, 0]) =
      ((sign (bytes.dropWhile isSpace)).1, (sign (bytes.dropWhile isSpace)).2 ++ [digit d, 0]) := by
    by_cases hnil : bytes.dropWhile isSpace = []
    · rw [hnil]
      exact sign_of_isDigit hdigit [0]
    · exact sign_append _ hnil
  have hall : ∀ b ∈ (sign (bytes.dropWhile isSpace)).2, isDigit b = true :=
    List.dropWhile_eq_nil_iff.mp (not_not.mp h)
  have hlast : [digit d, 0].takeWhile isDigit = [digit d] := by
    rw [List.takeWhile_cons_of_pos hdigit]
    rfl
  have hvalue : value [digit d] = d := by
    simp [value, toNat_digit hd]
  simp only [scanInt, hskip, hsign, List.takeWhile_append_of_pos hall, hlast, value_append, hvalue]
  simp [mul_comm]

end Decimal

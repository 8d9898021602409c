import LddSamples.Kernel.Sprintf
import LddSamples.Library.CString

/-!
# lddbus: which driver gets which device

`ldd_match` compares the name of a device with that of a driver, as far as the latter goes.
The devices of ldddev are sculld0, sculld1 and so on; their names are put together in an
array of 20 bytes.
-/

namespace LddSamples.Devmodel.LddBus

open Kernel CArith Outcome CString Decimal

/-- The bytes of a string before its terminator. -/
structure Name where
  bytes : List UInt8
  clean : 0 ∉ bytes

/-- `strncmp`; past its last byte a string has the terminator. -/
def strncmp (xs ys : List UInt8) : ℕ → ℤ
  | 0 => 0
  | n + 1 =>
      match xs, ys with
      | [], [] => 0
      | [], y :: _ => -(y.toNat : ℤ)
      | x :: _, [] => x.toNat
      | x :: xs, y :: ys => if x = y then strncmp xs ys n else (x.toNat : ℤ) - y.toNat

/-- `!strncmp(dev_name(dev), driver->name, strlen(driver->name))`. -/
def lddMatch (dev driver : Name) : Bool :=
  decide (strncmp dev.bytes driver.bytes driver.bytes.length = 0)

/-- The name of the driver of ldddev. -/
def sculld : Name := ⟨[115, 99, 117, 108, 108, 100], by decide⟩

theorem decimal_clean (n : ℕ) : 0 ∉ decimal n := fun h =>
  absurd (isDigit_of_mem_decimal h) (by decide)

theorem text_clean (v : ℤ) : 0 ∉ text v := by
  have hclean := decimal_clean v.natAbs
  unfold text
  split <;> simp [hclean]

/-- The text of `"sculld%d"`. -/
def devname (index : ℤ) : Name where
  bytes := sculld.bytes ++ text index
  clean := by
    rw [List.mem_append, not_or]
    exact ⟨sculld.clean, text_clean index⟩

def DEVNAME_SIZE : ℕ := 20

/-- `sculld_register_dev` up to the registration: the text goes to `dev->devname`, and what
the array then holds is the name. -/
def sculldRegisterDev (array : ℕ → UInt8) (index : ℤ) : Except Fault (List UInt8) := do
  let array ← ofOption .copyOutOfBounds (store DEVNAME_SIZE array 0 (devname index).bytes)
  ofOption .indexOutOfBounds (contents DEVNAME_SIZE array)

/-- The indices of the loop of `sculld_init`. -/
def indices (sculldDevs : ℤ) : List ℤ := (List.range sculldDevs.toNat).map Int.ofNat

variable {dev driver : Name} {xs ys : List UInt8} {sculldDevs i j : ℤ}

theorem strncmp_eq_zero_iff (hclean : 0 ∉ ys) : strncmp xs ys ys.length = 0 ↔ ys <+: xs := by
  induction ys generalizing xs with
  | nil => simp [strncmp]
  | cons y ys ih =>
      have hy : y.toNat ≠ 0 := by
        intro hzero
        apply hclean
        rw [show y = 0 from UInt8.toNat_inj.mp hzero]
        exact List.mem_cons_self
      cases xs with
      | nil => simp [strncmp, hy]
      | cons x xs =>
          rw [List.length_cons, strncmp, List.cons_prefix_cons]
          split
          · next heq =>
              subst heq
              rw [ih fun hmem => hclean (List.mem_cons_of_mem _ hmem), and_iff_right rfl]
          · next hne =>
              refine iff_of_false (fun hzero => hne ?_) fun hprefix => hne hprefix.1.symm
              exact UInt8.toNat_inj.mp (by omega)

theorem lddMatch_iff : lddMatch dev driver = true ↔ driver.bytes <+: dev.bytes := by
  rw [lddMatch, decide_eq_true_eq, strncmp_eq_zero_iff driver.clean]

/-- A name of a device holds in its array. -/
theorem sculldRegisterDev_eq (array : ℕ → UInt8) (hi : i ∈ indices sculldDevs)
    (hint : sculldDevs ≤ INT_MAX) : sculldRegisterDev array i = .ok (devname i).bytes := by
  obtain ⟨k, hk, rfl⟩ := List.mem_map.mp hi
  rw [List.mem_range] at hk
  have hlength : (text (Int.ofNat k)).length ≤ 11 :=
    text_int_length ⟨by simp only [Int.ofNat_eq_natCast]; omega,
      by simp only [Int.ofNat_eq_natCast]; omega⟩
  have hfit : (devname (Int.ofNat k)).bytes.length < DEVNAME_SIZE := by
    rw [devname, List.length_append, DEVNAME_SIZE, show sculld.bytes.length = 6 from rfl]
    omega
  rw [sculldRegisterDev, store_eq array (by rwa [Nat.zero_add]), ofOption_some, ok_bind,
    (holds_stored array hfit (devname (Int.ofNat k)).clean).contents_eq, ofOption_some]

theorem devname_injective : Function.Injective devname := by
  intro i j h
  have hbytes := congrArg Name.bytes h
  exact text_injective (List.append_cancel_left hbytes)

theorem indices_nodup (sculldDevs : ℤ) : (indices sculldDevs).Nodup :=
  List.Nodup.map (fun _ _ => Int.ofNat.inj) List.nodup_range

/-- Two devices are enough to tell the driver of all of them. -/
theorem prefix_of_both (h0 : driver.bytes <+: (devname 0).bytes)
    (h1 : driver.bytes <+: (devname 1).bytes) : driver.bytes <+: sculld.bytes := by
  have hlength : driver.bytes.length ≤ 7 := h0.length_le
  rcases Nat.lt_or_ge driver.bytes.length 7 with hshort | hlong
  · exact List.prefix_of_prefix_length_le h0 (List.prefix_append _ _)
      (Nat.le_of_lt_succ hshort)
  · have hzero := h0.eq_of_length_le hlong
    have hone := h1.eq_of_length_le hlong
    exact absurd (hzero.symm.trans hone) (by decide)

/-- For any number of devices, each name has room in its array, no two devices have the same
name, and the driver of ldddev gets all of them. With two devices or more the drivers that
would get all of them are those whose names are prefixes of its name. -/
theorem sculld_devices (sculldDevs : ℤ) (hint : sculldDevs ≤ INT_MAX) :
    (∀ i ∈ indices sculldDevs, ∀ array,
        sculldRegisterDev array i = .ok (devname i).bytes) ∧
      ((indices sculldDevs).map devname).Nodup ∧
      (∀ i ∈ indices sculldDevs, lddMatch (devname i) sculld = true) ∧
      ∀ driver, 1 < sculldDevs →
        ((∀ i ∈ indices sculldDevs, lddMatch (devname i) driver = true) ↔
          driver.bytes <+: sculld.bytes) := by
  refine ⟨fun i hi array => sculldRegisterDev_eq array hi hint,
    (indices_nodup sculldDevs).map devname_injective, fun i _ => ?_, fun driver hmore => ?_⟩
  · rw [lddMatch_iff]
    exact List.prefix_append _ _
  · constructor
    · intro hall
      have hmem : ∀ k : ℕ, (k : ℤ) < sculldDevs → (k : ℤ) ∈ indices sculldDevs := by
        intro k hk
        exact List.mem_map.mpr ⟨k, List.mem_range.mpr (by omega), rfl⟩
      exact prefix_of_both (lddMatch_iff.mp (hall 0 (hmem 0 (by omega))))
        (lddMatch_iff.mp (hall 1 (hmem 1 (by omega))))
    · intro hprefix i _
      rw [lddMatch_iff]
      exact hprefix.trans (List.prefix_append _ _)

/-- The four devices that there are without a parameter. -/
theorem four_devices :
    (∀ i ∈ indices 4, ∀ array, sculldRegisterDev array i = .ok (devname i).bytes) ∧
      ((indices 4).map devname).Nodup ∧
      (∀ i ∈ indices 4, lddMatch (devname i) sculld = true) ∧
      ∀ driver, (1 : ℤ) < 4 → ((∀ i ∈ indices 4, lddMatch (devname i) driver = true) ↔
        driver.bytes <+: sculld.bytes) :=
  sculld_devices 4 (by decide)

end LddSamples.Devmodel.LddBus

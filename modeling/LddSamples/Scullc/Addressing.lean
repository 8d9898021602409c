import LddSamples.Scullc.Control
import LddSamples.Scullc.TransferSpec

/-!
# Which positions the address translation tells apart

The list index is a `long` quotient that is stored in an `int`. So the places of a
device come round again after `2 ^ 32` list items, and the index is negative in the
second half of every round.
-/

namespace LddSamples.Scullc

open Kernel CArith Outcome

/-- A `loff_t` that a seek can leave behind as the position of a file. -/
def Accepted (pos : ℤ) : Prop :=
  toInt64 pos = pos ∧ ∀ dev fPos, scullcLlseek dev fPos pos 0 = (pos, pos)

/-- Every position of `S` is given a place in the device, and no two the same. -/
def Translates (quantum qset : ℤ) (S : Set ℤ) : Prop :=
  (∀ pos ∈ S, ∃ loc, locate quantum qset pos = .ok loc ∧ 0 ≤ loc.item ∧
      (0 ≤ loc.sPos ∧ loc.sPos < qset) ∧ 0 ≤ loc.qPos ∧ loc.qPos < quantum) ∧
    S.InjOn (locate quantum qset)

theorem accepted_iff {pos : ℤ} : Accepted pos ↔ 0 ≤ pos ∧ pos < 9223372036854775808 := by
  constructor
  · rintro ⟨hwidth, hseek⟩
    have hnonneg : 0 ≤ pos := by
      by_contra hneg
      have hresult := congrArg Prod.fst (hseek .initial 0)
      simp only [scullcLlseek, scullcLlseek.settle, if_pos (Int.not_le.mp hneg)] at hresult
      have hfile := congrArg Prod.snd (hseek .initial 0)
      simp only [scullcLlseek, scullcLlseek.settle, if_pos (Int.not_le.mp hneg)] at hfile
      omega
    unfold toInt64 at hwidth
    omega
  · rintro ⟨hlow, hhigh⟩
    refine ⟨toInt64_of_mem (by omega) hhigh, fun dev fPos => ?_⟩
    exact if_neg (Int.not_lt.mpr hlow)

/-! ## Places -/

/-- Quotients cut down to an `int` and remainders agree exactly when the numbers
agree modulo `2 ^ 32` divisors. -/
theorem toInt32_div_eq_and_mod_eq_iff (d p p' : ℕ) :
    toInt32 ((p / d : ℕ) : ℤ) = toInt32 ((p' / d : ℕ) : ℤ) ∧ p % d = p' % d ↔
      p % (d * 4294967296) = p' % (d * 4294967296) := by
  have hitem : toInt32 ((p / d : ℕ) : ℤ) = toInt32 ((p' / d : ℕ) : ℤ) ↔
      p / d % 4294967296 = p' / d % 4294967296 := by
    rw [toInt32_eq_toInt32_iff]
    omega
  rw [hitem]
  constructor
  · rintro ⟨hquot, hrest⟩
    rw [Nat.mod_mul, Nat.mod_mul, hquot, hrest]
  · intro hmod
    constructor
    · rw [← Nat.mod_mul_right_div_self p, ← Nat.mod_mul_right_div_self p', hmod]
    · rw [← Nat.mod_mul_right_mod p d 4294967296, ← Nat.mod_mul_right_mod p' d 4294967296, hmod]

variable {q s : ℕ}

theorem locate_eq_iff (hg : Geometry q s) (p p' : ℕ) :
    locate q s p = locate q s p' ↔
      p % (q * s * 4294967296) = p' % (q * s * 4294967296) := by
  rw [← toInt32_div_eq_and_mod_eq_iff, locate_eq hg, locate_eq hg, Except.ok.injEq, Loc.mk.injEq,
    Nat.cast_inj, Nat.cast_inj, Nat.div_div_eq_div_mul, Nat.div_div_eq_div_mul]
  refine and_congr_right fun _ => ?_
  constructor
  · rintro ⟨hslot, hoffset⟩
    rw [Nat.mod_mul, Nat.mod_mul, hslot, hoffset]
  · intro hrest
    constructor
    · rw [← Nat.mod_mul_right_div_self p, ← Nat.mod_mul_right_div_self p', hrest]
    · rw [← Nat.mod_mul_right_mod p q s, ← Nat.mod_mul_right_mod p' q s, hrest]

theorem locate_inside_iff (hg : Geometry q s) (p : ℕ) :
    (∃ loc, locate q s p = .ok loc ∧ 0 ≤ loc.item ∧ (0 ≤ loc.sPos ∧ loc.sPos < s) ∧
        0 ≤ loc.qPos ∧ loc.qPos < q) ↔
      p / (q * s) % 4294967296 < 2147483648 := by
  have hslot := Nat.mod_lt (p / q) hg.qset_pos
  have hoffset := Nat.mod_lt p hg.quantum_pos
  have hitem : 0 ≤ toInt32 ((p / (q * s) : ℕ) : ℤ) ↔ p / (q * s) % 4294967296 < 2147483648 := by
    rw [toInt32_nonneg_iff]
    omega
  rw [locate_eq hg, Nat.div_div_eq_div_mul, ← hitem]
  constructor
  · rintro ⟨loc, hloc, hnonneg, -⟩
    rw [Except.ok.injEq] at hloc
    rwa [← hloc] at hnonneg
  · intro hnonneg
    exact ⟨_, rfl, hnonneg, by dsimp only; omega, by dsimp only; omega⟩

/-- The translation is right on a set of positions exactly when it keeps to the
first half of each round of `2 ^ 32` list items and has no two positions a whole
number of rounds apart. -/
theorem translates_iff (hg : Geometry q s) {S : Set ℤ} (hS : ∀ pos ∈ S, Accepted pos) :
    Translates q s S ↔
      (∀ pos ∈ S, pos / (q * s) % 4294967296 < 2147483648) ∧
        S.InjOn fun pos => pos % (q * s * 4294967296 : ℤ) := by
  have hnat : ∀ pos ∈ S, ((pos.toNat : ℕ) : ℤ) = pos := fun pos hpos =>
    Int.toNat_of_nonneg (accepted_iff.mp (hS pos hpos)).1
  refine and_congr (forall₂_congr fun pos hpos => ?_) (forall₂_congr fun pos hpos =>
    forall₂_congr fun pos' hpos' => ?_)
  · rw [← hnat pos hpos, locate_inside_iff hg]
    norm_cast
  · rw [← hnat pos hpos, ← hnat pos' hpos', locate_eq_iff hg]
    beta_reduce
    norm_cast

theorem geometry_default : Geometry 4000 500 := ⟨by decide, by decide, by decide⟩

theorem translates_iff_default :
    Translates (4000 : ℕ) (500 : ℕ) {0, 4000} ↔
      (∀ pos ∈ ({0, 4000} : Set ℤ), pos / ((4000 : ℕ) * (500 : ℕ)) % 4294967296 < 2147483648) ∧
        ({0, 4000} : Set ℤ).InjOn fun pos => pos % ((4000 : ℕ) * (500 : ℕ) * 4294967296 : ℤ) :=
  translates_iff geometry_default fun pos hpos => accepted_iff.mpr (by
    rcases hpos with rfl | rfl <;> decide)

/-- Every geometry gives a negative list index within the range of a seek. -/
theorem not_translates_accepted (hg : Geometry q s) : ¬ Translates q s {pos | Accepted pos} := by
  intro htranslates
  have hmax := INT_MAX_eq
  have hfits := hg.fits
  have hpos : (0 : ℤ) < q * s := by exact_mod_cast Nat.mul_pos hg.quantum_pos hg.qset_pos
  have hfirst := ((translates_iff hg fun _ hpos => hpos).mp htranslates).1
    (2147483648 * (q * s)) (accepted_iff.mpr ⟨by positivity, by omega⟩)
  rw [Int.mul_ediv_cancel _ hpos.ne'] at hfirst
  omega

/-- With the default geometry, positions 0 and `2 ^ 32 * 2000000` share a place, and
the list index of `2 ^ 31 * 2000000` is negative. -/
theorem default_geometry_aliases :
    Accepted 0 ∧ Accepted 8589934592000000 ∧ Accepted 4294967296000000 ∧
      locate SCULLC_QUANTUM SCULLC_QSET 0 = locate SCULLC_QUANTUM SCULLC_QSET 8589934592000000 ∧
      locate SCULLC_QUANTUM SCULLC_QSET 4294967296000000 = .ok ⟨-2147483648, 0, 0⟩ ∧
      ¬ Translates SCULLC_QUANTUM SCULLC_QSET {pos | Accepted pos} := by
  refine ⟨accepted_iff.mpr (by decide), accepted_iff.mpr (by decide),
    accepted_iff.mpr (by decide), rfl, rfl, ?_⟩
  rintro ⟨-, hinj⟩
  have heq := hinj (accepted_iff.mpr (by decide : (0 : ℤ) ≤ 0 ∧ _))
    (accepted_iff.mpr (by decide : (0 : ℤ) ≤ 8589934592000000 ∧ _)) rfl
  exact absurd heq (by decide)

end LddSamples.Scullc

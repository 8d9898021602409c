import Mathlib.Tactic

/-!
# Flags in a word

A flag is a word with one bit. A word has the flag if the bit is set in it.
-/

namespace Flags

variable {w : ℕ} {x y f : BitVec w} {i j : ℕ} {p : Prop}

def Has (x f : BitVec w) : Prop := x &&& f ≠ 0#w

instance (x f : BitVec w) : Decidable (Has x f) := inferInstanceAs (Decidable (_ ≠ _))

def bit (w i : ℕ) : BitVec w := BitVec.twoPow w i

theorem not_has_zero : ¬ Has (0#w) f := by
  simp [Has]

theorem has_or : Has (x ||| y) f ↔ Has x f ∨ Has y f := by
  have hdistrib : (x ||| y) &&& f = (x &&& f) ||| (y &&& f) := by
    ext k
    simp [Bool.and_or_distrib_right]
  rw [Has, hdistrib, Ne, BitVec.or_eq_zero_iff, not_and_or]
  rfl

theorem has_ite [Decidable p] : Has (if p then x else 0#w) f ↔ p ∧ Has x f := by
  split
  · next hp => simp [hp]
  · next hp => simp [hp, not_has_zero]

theorem has_bit (hi : i < w) : Has x (bit w i) ↔ x.getLsbD i = true := by
  rw [Has, bit, BitVec.and_twoPow]
  split
  · next hx =>
      simp only [hx, iff_true, ne_eq]
      intro hzero
      have hbit := congrArg (fun z : BitVec w => z.getLsbD i) hzero
      simp [hi] at hbit
  · next hx => simp [hx]

theorem bit_has_bit (hi : i < w) : Has (bit w j) (bit w i) ↔ j = i := by
  rw [has_bit hi, bit, BitVec.getLsbD_twoPow]
  simp only [Bool.and_eq_true, decide_eq_true_eq, and_iff_right_iff_imp]
  rintro rfl
  exact hi

/-- A flag that is taken away leaves all others. -/
theorem has_clear (hi : i < w) : Has (x &&& ~~~ bit w j) (bit w i) ↔ Has x (bit w i) ∧ j ≠ i := by
  rw [has_bit hi, has_bit hi, bit, BitVec.getLsbD_and, BitVec.getLsbD_not, BitVec.getLsbD_twoPow]
  simp only [hi, decide_true, Bool.true_and, Bool.and_eq_true, Bool.not_eq_true',
    Bool.and_eq_false_iff, decide_eq_false_iff_not]
  constructor
  · rintro ⟨hx, hj | hj⟩
    · exact ⟨hx, fun heq => hj (heq ▸ hi)⟩
    · exact ⟨hx, hj⟩
  · rintro ⟨hx, hj⟩
    exact ⟨hx, .inr hj⟩

end Flags

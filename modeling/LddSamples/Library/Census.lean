import Mathlib.Data.Finset.Card

/-!
# How many of a family have a property

The members of a family change one at a time, and a counter says how many of them have a
property: those that hold something, owe something or are inside somewhere.
-/

namespace Census

variable {ι α : Type*} {P : α → Prop} {f : ι → α} {n : ℕ} {i : ι} {a : α}

/-- `n` members of the family have the property. -/
def Counts (P : α → Prop) (f : ι → α) (n : ℕ) : Prop :=
  ∃ members : Finset ι, (∀ i, i ∈ members ↔ P (f i)) ∧ n = members.card

theorem counts_zero (h : ∀ i, ¬ P (f i)) : Counts P f 0 :=
  ⟨∅, fun i => iff_of_false (Finset.notMem_empty i) (h i), rfl⟩

theorem Counts.forall_not (h : Counts P f 0) (i : ι) : ¬ P (f i) := by
  obtain ⟨members, hmem, hcard⟩ := h
  rw [← hmem, Finset.card_eq_zero.mp hcard.symm]
  exact Finset.notMem_empty i

theorem Counts.ne_zero (h : Counts P f n) (hi : P (f i)) : n ≠ 0 := by
  rintro rfl
  exact h.forall_not i hi

theorem Counts.eq_zero (h : Counts P f n) (hnone : ∀ i, ¬ P (f i)) : n = 0 := by
  obtain ⟨members, hmem, hcard⟩ := h
  rw [hcard, Finset.card_eq_zero]
  exact Finset.eq_empty_of_forall_notMem fun i hi => hnone i ((hmem i).mp hi)

theorem Counts.exists_of_ne_zero (h : Counts P f n) (hn : n ≠ 0) : ∃ i, P (f i) := by
  by_contra hnone
  exact hn (h.eq_zero (not_exists.mp hnone))

theorem Counts.unique {j : ι} (h : Counts P f n) (hn : n ≤ 1) (hi : P (f i)) (hj : P (f j)) :
    i = j := by
  obtain ⟨members, hmem, hcard⟩ := h
  exact Finset.card_le_one.mp (hcard ▸ hn) i ((hmem i).mpr hi) j ((hmem j).mpr hj)

/-- Of `total` tokens `free` are left, and each member with the property has one of the others. -/
def Pool (P : α → Prop) (f : ι → α) (total free : ℕ) : Prop :=
  ∃ n, Counts P f n ∧ free + n = total

variable {total free : ℕ}

theorem pool_full (h : ∀ i, ¬ P (f i)) : Pool P f total total := ⟨0, counts_zero h, rfl⟩

/-- No more members than there are tokens have the property. -/
theorem Pool.card_le (h : Pool P f total free) {members : Finset ι}
    (hmem : ∀ i ∈ members, P (f i)) : members.card ≤ total := by
  obtain ⟨n, ⟨all, hall, hcard⟩, htotal⟩ := h
  have hle : members.card ≤ all.card :=
    Finset.card_le_card fun i hi => (hall i).mpr (hmem i hi)
  omega

theorem Pool.full_of_none (h : Pool P f total free) (hnone : ∀ i, ¬ P (f i)) : free = total := by
  obtain ⟨n, hcount, htotal⟩ := h
  rw [← htotal, hcount.eq_zero hnone, Nat.add_zero]

variable [DecidableEq ι]

/-- What a change of one member leaves as it is, is left as it is for all. -/
theorem comp_update_of_eq {β : Type*} (g : α → β) (h : g a = g (f i)) :
    g ∘ Function.update f i a = g ∘ f := by
  rw [Function.comp_update, h]
  exact Function.update_eq_self i (g ∘ f)

theorem Counts.stays (h : Counts P f n) (ha : P a ↔ P (f i)) :
    Counts P (Function.update f i a) n := by
  obtain ⟨members, hmem, hcard⟩ := h
  refine ⟨members, fun j => ?_, hcard⟩
  by_cases heq : j = i
  · rw [heq, Function.update_self, ha, hmem]
  · rw [Function.update_of_ne heq, hmem]

theorem Counts.enters (h : Counts P f n) (hi : ¬ P (f i)) (ha : P a) :
    Counts P (Function.update f i a) (n + 1) := by
  obtain ⟨members, hmem, hcard⟩ := h
  have hnew : i ∉ members := (hmem i).not.mpr hi
  refine ⟨insert i members, fun j => ?_, by rw [Finset.card_insert_of_notMem hnew, hcard]⟩
  by_cases heq : j = i
  · simp [heq, ha]
  · simp [heq, hmem]

theorem Counts.leaves (h : Counts P f n) (hi : P (f i)) (ha : ¬ P a) :
    Counts P (Function.update f i a) (n - 1) := by
  obtain ⟨members, hmem, hcard⟩ := h
  have hold : i ∈ members := (hmem i).mpr hi
  refine ⟨members.erase i, fun j => ?_, by rw [Finset.card_erase_of_mem hold, hcard]⟩
  by_cases heq : j = i
  · simp [heq, ha]
  · simp [heq, hmem]

/-- What the change of one member does to the count. -/
inductive Move (P : α → Prop) (was isNow : α) (n : ℕ) : ℕ → Prop
  | stays (h : P isNow ↔ P was) : Move P was isNow n n
  | enters (hwas : ¬ P was) (h : P isNow) : Move P was isNow n (n + 1)
  | leaves (hwas : P was) (h : ¬ P isNow) : Move P was isNow n (n - 1)

theorem Counts.move {n' : ℕ} (h : Counts P f n) (hmove : Move P (f i) a n n') :
    Counts P (Function.update f i a) n' := by
  cases hmove with
  | stays hsame => exact h.stays hsame
  | enters hwas hnow => exact h.enters hwas hnow
  | leaves hwas hnow => exact h.leaves hwas hnow

/-- What the change of one member does to the tokens that are free. -/
inductive Draw (P : α → Prop) (was isNow : α) (free : ℕ) : ℕ → Prop
  | stays (h : P isNow ↔ P was) : Draw P was isNow free free
  | takes (hfree : 0 < free) (hwas : ¬ P was) (h : P isNow) : Draw P was isNow free (free - 1)
  | gives (hwas : P was) (h : ¬ P isNow) : Draw P was isNow free (free + 1)

theorem Pool.draw {free' : ℕ} (h : Pool P f total free) (hdraw : Draw P (f i) a free free') :
    Pool P (Function.update f i a) total free' := by
  obtain ⟨n, hcount, htotal⟩ := h
  cases hdraw with
  | stays hsame => exact ⟨n, hcount.stays hsame, htotal⟩
  | takes hfree hwas hnow => exact ⟨n + 1, hcount.enters hwas hnow, by omega⟩
  | gives hwas hnow =>
      have hn := hcount.ne_zero hwas
      exact ⟨n - 1, hcount.leaves hwas hnow, by omega⟩

end Census

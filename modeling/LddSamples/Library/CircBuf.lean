import Mathlib.Tactic

/-!
# Circular buffers

A buffer with a power of two places, filled at `head` and emptied at `tail`. It is empty
when both are at the same place, so one place always stays free.
-/

namespace CircBuf

/-- A buffer of `2 ^ order` places. -/
structure Ring (α : Type*) (order : ℕ) where
  buf : ℕ → α
  head : ℕ
  tail : ℕ
  head_lt : head < 2 ^ order
  tail_lt : tail < 2 ^ order

variable {α : Type*} {order : ℕ}

namespace Ring

def Empty (c : Ring α order) : Prop := c.head = c.tail

instance (c : Ring α order) : Decidable c.Empty := inferInstanceAs (Decidable (_ = _))

/-- `(head - tail) & (size - 1)`. -/
def count (c : Ring α order) : ℕ := (c.head + 2 ^ order - c.tail) % 2 ^ order

/-- What has been put in and not been taken out, in this order. -/
def pending (c : Ring α order) : List α :=
  (List.range c.count).map fun i => c.buf ((c.tail + i) % 2 ^ order)

/-- `tail = (tail + 1) & (size - 1)`. -/
def advance (c : Ring α order) : Ring α order :=
  { c with
    tail := (c.tail + 1) &&& (2 ^ order - 1)
    tail_lt := by
      rw [Nat.and_two_pow_sub_one_eq_mod]
      exact Nat.mod_lt _ (Nat.two_pow_pos order) }

variable (c : Ring α order)

@[simp] theorem pending_length : c.pending.length = c.count := by
  rw [pending, List.length_map, List.length_range]

theorem advance_tail : c.advance.tail = (c.tail + 1) % 2 ^ order :=
  Nat.and_two_pow_sub_one_eq_mod _ _

/-- The head is ahead of the tail, or has gone round the end. -/
theorem count_cases :
    (c.tail ≤ c.head ∧ c.count = c.head - c.tail) ∨
      (c.head < c.tail ∧ c.count = c.head + 2 ^ order - c.tail) := by
  have hhead := c.head_lt
  have htail := c.tail_lt
  unfold count
  rcases Nat.lt_or_ge c.head c.tail with hlt | hge
  · exact .inr ⟨hlt, Nat.mod_eq_of_lt (by omega)⟩
  · refine .inl ⟨hge, ?_⟩
    have hround : c.head + 2 ^ order - c.tail = c.head - c.tail + 2 ^ order := by omega
    rw [hround, Nat.add_mod_right, Nat.mod_eq_of_lt (by omega)]

theorem count_lt : c.count < 2 ^ order := Nat.mod_lt _ (Nat.two_pow_pos order)

theorem count_eq_zero_iff : c.count = 0 ↔ c.Empty := by
  have hhead := c.head_lt
  have htail := c.tail_lt
  unfold Empty
  rcases c.count_cases with ⟨_, hcount⟩ | ⟨_, hcount⟩ <;> omega

theorem pending_eq_nil_iff : c.pending = [] ↔ c.Empty := by
  rw [← List.length_eq_zero_iff, pending_length, count_eq_zero_iff]

theorem advance_count (h : ¬ c.Empty) : c.advance.count + 1 = c.count := by
  have hhead := c.head_lt
  have htail := c.tail_lt
  have hnext := c.advance_tail
  have hsame : c.advance.head = c.head := rfl
  have hwrap : (c.tail + 1) % 2 ^ order = if c.tail + 1 = 2 ^ order then 0 else c.tail + 1 := by
    split
    · next hend => rw [hend, Nat.mod_self]
    · exact Nat.mod_eq_of_lt (by omega)
  unfold Empty at h
  rcases c.count_cases with ⟨_, hcount⟩ | ⟨_, hcount⟩ <;>
    rcases c.advance.count_cases with ⟨_, hcount'⟩ | ⟨_, hcount'⟩ <;>
      split at hwrap <;> omega

/-- The element at the tail is the oldest one. -/
theorem pending_eq_cons (h : ¬ c.Empty) : c.pending = c.buf c.tail :: c.advance.pending := by
  rw [pending, ← c.advance_count h, List.range_succ_eq_map, List.map_cons, List.map_map,
    Nat.add_zero, Nat.mod_eq_of_lt c.tail_lt]
  refine congrArg _ (List.map_congr_left fun i _ => ?_)
  show c.buf ((c.tail + (i + 1)) % 2 ^ order) = c.buf ((c.advance.tail + i) % 2 ^ order)
  rw [advance_tail, Nat.mod_add_mod, Nat.add_assoc, Nat.add_comm i 1]

end Ring

end CircBuf

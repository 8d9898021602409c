import Mathlib.Tactic

/-!
# Contents addressed by offset

A content is a total function of the offset. A transfer replaces one segment of
it, and the history of the transfers alone determines every later window.
-/

namespace ByteMap

variable {α : Type*}

def overwrite (f : ℕ → α) (p : ℕ) (data : List α) (i : ℕ) : α :=
  if p ≤ i then (data[i - p]?).getD (f i) else f i

def window (f : ℕ → α) (p n : ℕ) : List α := (List.range n).map fun i => f (p + i)

@[simp] theorem window_length (f : ℕ → α) (p n : ℕ) : (window f p n).length = n := by
  simp [window]

@[simp] theorem window_zero (f : ℕ → α) (p : ℕ) : window f p 0 = [] := rfl

@[simp] theorem window_getElem (f : ℕ → α) (p n i : ℕ) (h : i < (window f p n).length) :
    (window f p n)[i] = f (p + i) := by
  simp [window]

@[simp] theorem overwrite_nil (f : ℕ → α) (p : ℕ) : overwrite f p [] = f := by
  funext i
  simp [overwrite]

theorem overwrite_of_lt (f : ℕ → α) (data : List α) {p i : ℕ} (h : i < p) :
    overwrite f p data i = f i := if_neg (by omega)

theorem overwrite_of_le (f : ℕ → α) (data : List α) {p i : ℕ} (h : p ≤ i) :
    overwrite f p data i = (data[i - p]?).getD (f i) := if_pos h

theorem overwrite_of_ge (f : ℕ → α) {p i : ℕ} {data : List α} (h : p + data.length ≤ i) :
    overwrite f p data i = f i := by
  rw [overwrite, if_pos (by omega), List.getElem?_eq_none (by omega), Option.getD_none]

theorem overwrite_of_mem (f : ℕ → α) (p : ℕ) {i : ℕ} {data : List α} (h : i < data.length) :
    overwrite f p data (p + i) = data[i] := by
  simp [overwrite, h]

/-- Storing a value that is not there changes the content. -/
theorem overwrite_ne {f : ℕ → α} {p : ℕ} {data : List α} {a : α} (hhead : data[0]? = some a)
    (hf : f p ≠ a) : overwrite f p data ≠ f := by
  intro hsame
  have hstored := congrFun hsame p
  rw [overwrite_of_le f data (le_refl p), Nat.sub_self, hhead, Option.getD_some] at hstored
  exact hf hstored.symm

theorem overwrite_singleton (f : ℕ → α) (p : ℕ) (a : α) :
    overwrite f p [a] = Function.update f p a := by
  funext i
  rcases lt_trichotomy i p with hlt | rfl | hgt
  · rw [overwrite_of_lt f [a] hlt, Function.update_of_ne hlt.ne]
  · rw [Function.update_self]
    exact overwrite_of_mem f i (show 0 < [a].length from Nat.zero_lt_one)
  · rw [overwrite_of_ge f (by simpa using hgt), Function.update_of_ne hgt.ne']

theorem overwrite_all {P : α → Prop} {f : ℕ → α} {p i : ℕ} {data : List α}
    (hdata : ∀ a ∈ data, P a) (hf : P (f i)) : P (overwrite f p data i) := by
  unfold overwrite
  split
  · cases h : data[i - p]? with
    | none => simpa using hf
    | some a => exact hdata a (List.mem_of_getElem? h)
  · exact hf

theorem window_add (f : ℕ → α) (p m n : ℕ) :
    window f p (m + n) = window f p m ++ window f (p + m) n := by
  unfold window
  rw [List.range_add, List.map_append, List.map_map]
  congr 1
  refine List.map_congr_left fun i _ => ?_
  simp [Nat.add_assoc]

theorem window_map {β : Type*} (f : ℕ → α) (g : α → β) (p n : ℕ) :
    (window f p n).map g = window (fun i => g (f i)) p n := by
  simp [window]

theorem window_take (f : ℕ → α) (p n k : ℕ) : (window f p n).take k = window f p (min k n) := by
  rw [window, window, ← List.map_take, List.take_range]

theorem window_overwrite (f : ℕ → α) (p : ℕ) (data : List α) :
    window (overwrite f p data) p data.length = data := by
  apply List.ext_getElem
  · simp
  · intro i hleft hright
    rw [window_getElem, overwrite_of_mem f p hright]

/-- A window onto the first bytes of what was stored. -/
theorem window_overwrite_take (f : ℕ → α) (p : ℕ) {data : List α} {n : ℕ}
    (hn : n ≤ data.length) : window (overwrite f p data) p n = data.take n := by
  conv_rhs => rw [← window_overwrite f p data]
  rw [window_take, min_eq_left hn]

/-- What is stored at the end of a window goes on behind it. -/
theorem window_overwrite_end (f : ℕ → α) (p : ℕ) {data : List α} {n : ℕ} (hn : n ≤ data.length) :
    window (overwrite f p data) 0 (p + n) = window f 0 p ++ data.take n := by
  rw [window_add, Nat.zero_add, window_overwrite_take f p hn]
  refine congrArg (· ++ data.take n) (List.map_congr_left fun i hi => ?_)
  rw [Nat.zero_add]
  exact overwrite_of_lt f data (List.mem_range.mp hi)

theorem overwrite_append (f : ℕ → α) (p : ℕ) (xs ys : List α) :
    overwrite (overwrite f p xs) (p + xs.length) ys = overwrite f p (xs ++ ys) := by
  funext i
  by_cases hlow : i < p + xs.length
  · rw [overwrite_of_lt _ ys hlow]
    by_cases hp : p ≤ i
    · have hi : i - p < xs.length := by omega
      simp [overwrite, hp, hi, List.getElem?_append_left hi]
    · simp [overwrite, hp]
  · have hp : p ≤ i := by omega
    have hi : xs.length ≤ i - p := by omega
    have hsub : i - (p + xs.length) = i - p - xs.length := by omega
    simp only [overwrite, if_pos (show p + xs.length ≤ i by omega), if_pos hp,
      List.getElem?_append_right hi, hsub, List.getElem?_eq_none hi, Option.getD_none]

theorem overwrite_getD (f : ℕ → Option α) (p : ℕ) (data : List α) (z : α) (i : ℕ) :
    (overwrite f p (data.map some) i).getD z = overwrite (fun j => (f j).getD z) p data i := by
  unfold overwrite
  split
  · cases h : data[i - p]? <;> simp [h]
  · rfl

theorem overwrite_shift {f g : ℕ → α} {c p i : ℕ} (data : List α) (h : g (c + i) = f i) :
    overwrite g (c + p) data (c + i) = overwrite f p data i := by
  unfold overwrite
  simp only [h, Nat.add_le_add_iff_left, Nat.add_sub_add_left]

theorem take_drop_succ (xs : List α) (z : α) {i : ℕ} (hi : i < xs.length) (n : ℕ) :
    (xs.drop i).take (n + 1) = [xs.getD i z] ++ (xs.drop (i + 1)).take n := by
  rw [List.drop_eq_getElem_cons hi, List.take_succ_cons, List.getD_eq_getElem?_getD,
    List.getElem?_eq_getElem hi, Option.getD_some]
  rfl

/-! ## Histories of transfers -/

/-- The value most recently stored at offset `i` by a history of transfers,
newest first, over an initial content. -/
def lastStored (init : ℕ → α) : List (ℕ × List α) → ℕ → α
  | [], i => init i
  | (p, data) :: older, i =>
      if h : p ≤ i ∧ i - p < data.length then data.get ⟨i - p, h.2⟩ else lastStored init older i

theorem lastStored_eq_foldr (init : ℕ → α) (log : List (ℕ × List α)) :
    lastStored init log = log.foldr (fun t f => overwrite f t.1 t.2) init := by
  induction log with
  | nil => rfl
  | cons t older ih =>
      obtain ⟨p, data⟩ := t
      funext i
      rw [List.foldr_cons, ← ih, lastStored]
      split
      · next h =>
          simp [overwrite, h.1, h.2]
      · next h =>
          by_cases hp : p ≤ i
          · have hafter : p + data.length ≤ i := by omega
            exact (overwrite_of_ge _ hafter).symm
          · exact (overwrite_of_lt _ _ (Nat.not_le.mp hp)).symm

theorem lastStored_append (init : ℕ → α) (newer older : List (ℕ × List α)) :
    lastStored init (newer ++ older) = lastStored (lastStored init older) newer := by
  rw [lastStored_eq_foldr, lastStored_eq_foldr, lastStored_eq_foldr, List.foldr_append]

theorem lastStored_cons (init : ℕ → α) (p : ℕ) (data : List α) (older : List (ℕ × List α)) :
    lastStored init ((p, data) :: older) = overwrite (lastStored init older) p data := by
  rw [lastStored_eq_foldr, lastStored_eq_foldr, List.foldr_cons]

end ByteMap

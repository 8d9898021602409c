import Mathlib.Tactic

/-!
# Computations that may stop

Sequencing rules for `Except`: a `do` block that succeeds is taken apart one
computation at a time, without unfolding it.
-/

namespace Outcome

universe u v

variable {φ : Type u} {α β : Type v}

@[simp] theorem bind_eq_ok {x : Except φ α} {f : α → Except φ β} {b : β} :
    (x >>= f) = .ok b ↔ ∃ a, x = .ok a ∧ f a = .ok b := by
  cases x with
  | error e => simp [bind, Except.bind]
  | ok a => simp [bind, Except.bind]

theorem bind_eq_error {x : Except φ α} {f : α → Except φ β} {e : φ} :
    (x >>= f) = .error e ↔ x = .error e ∨ ∃ a, x = .ok a ∧ f a = .error e := by
  cases x with
  | error e' => simp [bind, Except.bind]
  | ok a => simp [bind, Except.bind]

@[simp] theorem ok_bind (a : α) (f : α → Except φ β) : (Except.ok a >>= f) = f a := rfl

@[simp] theorem error_bind (e : φ) (f : α → Except φ β) :
    ((Except.error e : Except φ α) >>= f) = .error e := rfl

@[simp] theorem pure_eq_ok (a : α) : (pure a : Except φ α) = .ok a := rfl

/-- A computation goes on to a value exactly when it comes to one. -/
theorem exists_bind_ok {x : Except φ α} {g : α → β} :
    (∃ b, (x >>= fun a => .ok (g a)) = .ok b) ↔ ∃ a, x = .ok a := by
  cases x <;> simp

theorem map_of_bind {γ : Type v} (x : Except φ α) (f : α → Except φ β) (g : β → γ) :
    (x >>= f).map g = x >>= fun a => (f a).map g := by
  cases x <;> rfl

def ofOption (e : φ) : Option α → Except φ α
  | none => .error e
  | some a => .ok a

@[simp] theorem ofOption_some (e : φ) (a : α) : ofOption e (some a) = .ok a := rfl

@[simp] theorem ofOption_eq_ok {e : φ} {o : Option α} {a : α} :
    ofOption e o = .ok a ↔ o = some a := by
  cases o <;> simp [ofOption]

theorem ofOption_eq_error {e f : φ} {o : Option α} :
    ofOption e o = .error f ↔ o = none ∧ e = f := by
  cases o <;> simp [ofOption]

/-- A check that stops the computation when it fails. -/
def require (e : φ) (p : Prop) [Decidable p] : Except φ Unit :=
  if p then .ok () else .error e

@[simp] theorem require_eq_ok {e : φ} {p : Prop} [Decidable p] {u : Unit} :
    require e p = .ok u ↔ p := by
  unfold require
  split <;> simp_all

theorem require_eq_error {e f : φ} {p : Prop} [Decidable p] :
    require e p = .error f ↔ ¬ p ∧ e = f := by
  unfold require
  split <;> simp_all

theorem require_of {e : φ} {p : Prop} [Decidable p] (h : p) : require e p = .ok () := if_pos h

/-! ## What a computation comes to -/

/-- The computation comes to a value with `P`, or stops for a reason with `E`. -/
def Meets (E : φ → Prop) (P : α → Prop) : Except φ α → Prop
  | .ok a => P a
  | .error e => E e

section

variable {E F : φ → Prop} {P Q : α → Prop} {R : β → Prop} {x y : Except φ α}

theorem meets_ok {a : α} (h : P a) : Meets E P (.ok a : Except φ α) := h

theorem Meets.of_ok {a : α} (h : Meets E P x) (hx : x = .ok a) : P a := by
  rw [hx] at h
  exact h

theorem Meets.of_error {e : φ} (h : Meets E P x) (hx : x = .error e) : E e := by
  rw [hx] at h
  exact h

theorem Meets.mono (h : Meets E P x) (hEF : ∀ e, E e → F e) (hPQ : ∀ a, P a → Q a) :
    Meets F Q x := by
  cases x with
  | error e => exact hEF e h
  | ok a => exact hPQ a h

theorem Meets.bind {f : α → Except φ β} (h : Meets E P x) (hf : ∀ a, P a → Meets E R (f a)) :
    Meets E R (x >>= f) := by
  cases x with
  | error e => exact h
  | ok a => exact hf a h

theorem Meets.bind_eq {f : α → Except φ β} (h : Meets E P x)
    (hf : ∀ a, x = .ok a → P a → Meets E R (f a)) : Meets E R (x >>= f) := by
  cases x with
  | error e => exact h
  | ok a => exact hf a rfl h

theorem meets_ite {p : Prop} [Decidable p] (hpos : p → Meets E P x) (hneg : ¬ p → Meets E P y) :
    Meets E P (if p then x else y) := by
  split
  · exact hpos ‹_›
  · exact hneg ‹_›

theorem meets_of_ok (h : ∀ a, x = .ok a → P a) : Meets (fun _ => True) P x := by
  cases x with
  | error e => trivial
  | ok a => exact h a rfl

end

end Outcome

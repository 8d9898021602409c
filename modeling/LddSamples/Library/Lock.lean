import Mathlib.Data.Option.Basic

/-!
# A lock and the parties that are inside

A lock has an owner or none. It guards its section where the parties that are inside are
exactly its owner: then there is at most one, and each move of a party is one of four.
-/

namespace Lock

variable {ι : Type*} {owner owner' : Option ι} {inside inside' : ι → Prop} {p q : ι}

def Guards (owner : Option ι) (inside : ι → Prop) : Prop := ∀ p, inside p ↔ owner = some p

/-- What a step of party `p` can do to a lock and to its own place. -/
inductive Move (p : ι) (was isNow : Prop) (owner : Option ι) : Option ι → Prop
  | stays (h : isNow ↔ was) : Move p was isNow owner owner
  | acquires (hfree : owner = none) (h : isNow) : Move p was isNow owner (some p)
  | releases (hwas : was) (h : ¬ isNow) : Move p was isNow owner none

theorem Guards.unique (h : Guards owner inside) (hp : inside p) (hq : inside q) : p = q :=
  Option.some.inj (((h p).mp hp).symm.trans ((h q).mp hq))

theorem Guards.outside (h : Guards none inside) (p : ι) : ¬ inside p := fun hp =>
  nomatch (h p).mp hp

theorem guards_none (h : ∀ p, ¬ inside p) : Guards none inside := fun p =>
  iff_of_false (h p) nofun

theorem Guards.congr (h : Guards owner inside) (hsame : ∀ q, inside' q ↔ inside q) :
    Guards owner inside' := fun q => (hsame q).trans (h q)

theorem Guards.acquire (h : Guards none inside) (hp : inside' p)
    (hothers : ∀ q, q ≠ p → (inside' q ↔ inside q)) : Guards (some p) inside' := by
  intro q
  by_cases hq : q = p
  · simp [hq, hp]
  · rw [hothers q hq, iff_false_left (h.outside q), Option.some.injEq]
    exact fun heq => hq heq.symm

theorem Guards.release (h : Guards owner inside) (hwas : inside p) (hp : ¬ inside' p)
    (hothers : ∀ q, q ≠ p → (inside' q ↔ inside q)) : Guards none inside' := by
  apply guards_none
  intro q hq
  by_cases heq : q = p
  · exact hp (heq ▸ hq)
  · exact heq (h.unique ((hothers q heq).mp hq) hwas)

/-- A move of one party keeps the section guarded, whatever the lock is. -/
theorem Guards.move (h : Guards owner inside) (hmove : Move p (inside p) (inside' p) owner owner')
    (hothers : ∀ q, q ≠ p → (inside' q ↔ inside q)) : Guards owner' inside' := by
  cases hmove with
  | stays hsame =>
      refine h.congr fun q => ?_
      by_cases hq : q = p
      · rw [hq, hsame]
      · exact hothers q hq
  | acquires hfree hp =>
      rw [hfree] at h
      exact h.acquire hp hothers
  | releases hwas hp => exact h.release hwas hp hothers

end Lock

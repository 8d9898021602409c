import LddSamples.Library.Outcome

/-!
# Loops `while (test) body`

The body may stop the program. Where a loop ends is found one round at a time, and a
loop whose invariant implies its test never ends.
-/

namespace WhileLoop

variable {φ σ : Type*} (test : σ → Bool) (body : σ → Except φ σ)

/-- At most `n` rounds of the loop. -/
def rounds : ℕ → σ → Except φ σ
  | 0, s => .ok s
  | n + 1, s => if test s then do rounds n (← body s) else .ok s

/-- From `s` the loop is left in `t`. -/
def Ends (s t : σ) : Prop := ∃ n, rounds test body n s = .ok t ∧ test t = false

variable {test body} {s t : σ}

theorem ends_of_exit (h : test s = false) : Ends test body s t ↔ t = s := by
  constructor
  · rintro ⟨n, hrun, -⟩
    cases n with
    | zero =>
        cases hrun
        rfl
    | succ n =>
        simp only [rounds, h, Bool.false_eq_true, if_false] at hrun
        cases hrun
        rfl
  · rintro rfl
    exact ⟨0, rfl, h⟩

theorem ends_of_round (h : test s = true) :
    Ends test body s t ↔ ∃ s', body s = .ok s' ∧ Ends test body s' t := by
  constructor
  · rintro ⟨n, hrun, hexit⟩
    cases n with
    | zero =>
        cases hrun
        rw [h] at hexit
        cases hexit
    | succ n =>
        simp only [rounds, h, if_true, Outcome.bind_eq_ok] at hrun
        obtain ⟨s', hbody, hrest⟩ := hrun
        exact ⟨s', hbody, n, hrest, hexit⟩
  · rintro ⟨s', hbody, n, hrest, hexit⟩
    refine ⟨n + 1, ?_, hexit⟩
    simp only [rounds, h, if_true, hbody, Outcome.ok_bind, hrest]

/-- A loop whose test holds under an invariant never ends. -/
theorem not_ends {I : σ → Prop} (htest : ∀ s, I s → test s = true)
    (hkeep : ∀ s s', I s → body s = .ok s' → I s') (hs : I s) : ¬ Ends test body s t := by
  rintro ⟨n, hrun, hexit⟩
  induction n generalizing s with
  | zero =>
      obtain rfl : s = t := Except.ok.inj hrun
      rw [htest s hs] at hexit
      cases hexit
  | succ n ih =>
      simp only [rounds, htest s hs, if_true, Outcome.bind_eq_ok] at hrun
      obtain ⟨s', hbody, hrest⟩ := hrun
      exact ih (hkeep s s' hs hbody) hrest

/-- What a round keeps, the loop keeps. -/
theorem Ends.keeps {I : σ → Prop} (hkeep : ∀ s s', I s → body s = .ok s' → I s') (hs : I s)
    (h : Ends test body s t) : I t := by
  obtain ⟨n, hrun, -⟩ := h
  induction n generalizing s with
  | zero =>
      cases hrun
      exact hs
  | succ n ih =>
      rw [rounds] at hrun
      split at hrun
      · obtain ⟨s', hbody, hrest⟩ := Outcome.bind_eq_ok.mp hrun
        exact ih (hkeep s s' hs hbody) hrest
      · cases hrun
        exact hs

/-- Two loops do the same where the rounds of one are those of the other, seen through `f`. -/
theorem ends_map {τ : Type*} {test' : τ → Bool} {body' : τ → Except φ τ} {f : σ → τ}
    (htest : ∀ s, test' (f s) = test s)
    (hbody : ∀ s, test s = true → body' (f s) = (body s).map f) {u : τ} :
    Ends test' body' (f s) u ↔ ∃ t, Ends test body s t ∧ f t = u := by
  have hrounds : ∀ n s, rounds test' body' n (f s) = (rounds test body n s).map f := by
    intro n
    induction n with
    | zero => exact fun s => rfl
    | succ n ih =>
        intro s
        rw [rounds, rounds, htest]
        split
        · next hround =>
            rw [hbody s hround]
            cases body s with
            | error e => rfl
            | ok s' => exact ih s'
        · rfl
  constructor
  · rintro ⟨n, hrun, hexit⟩
    rw [hrounds] at hrun
    cases hold : rounds test body n s with
    | error e => simp [hold, Except.map] at hrun
    | ok t =>
        simp only [hold, Except.map, Except.ok.injEq] at hrun
        refine ⟨t, ⟨n, hold, ?_⟩, hrun⟩
        rwa [← htest, hrun]
  · rintro ⟨t, ⟨n, hrun, hexit⟩, rfl⟩
    refine ⟨n, ?_, by rwa [htest]⟩
    rw [hrounds, hrun]
    rfl

end WhileLoop

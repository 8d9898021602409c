import LddSamples.Kernel.Basic
import LddSamples.Library.Runs

/-!
# lab4_one_thread: one flag between a handler and a thread

`my_interrupt` counts the interrupt, raises `cond` and wakes the thread; `thr_fun` clears
`cond`, waits for it and counts a bottom half. The thread runs before `my_generic_init`
has set the counters to zero and requested the interrupt.
-/

namespace LddSamples.Interrupts.OneThread

open Kernel CArith

/-- Where `my_generic_init` stands: before each of its two resets, before `request_irq`,
and after it. -/
inductive BootPc
  | resetBh
  | resetTh
  | request
  | loaded
  | failed

/-- Where `my_interrupt` stands: `counted` is before `atomic_set(&cond, 1)`, `raised`
before the wakeup. -/
inductive IrqPc
  | idle
  | counted
  | raised

/-- Where `thr_fun` stands: `top` is before `atomic_set(&cond, 0)`, `waiting` at the test
of the wait, `passed` before the test after it. -/
inductive ThreadPc
  | top
  | waiting
  | asleep
  | passed
  | counting
  | bottom
  | exited

structure State where
  counterTh : ℤ
  counterBh : ℤ
  cond : ℤ
  shouldStop : Bool
  boot : BootPc
  handler : IrqPc
  thread : ThreadPc

inductive Event
  | resetBh
  | resetTh
  | request (granted : Bool)
  | incTh
  | setCond
  | wakeUp
  | clear
  | test
  | recheck
  | incBh
  | loop
  | stop
  deriving DecidableEq

/-- A wakeup sends a sleeping thread back to the test of its wait. -/
def ThreadPc.wake : ThreadPc → ThreadPc
  | .asleep => .waiting
  | pc => pc

namespace State

/-- `my_init` has set `cond` to 1 and started the thread. -/
def initial : State := ⟨0, 0, 1, false, .resetBh, .idle, .top⟩

def step (s : State) : Event → Except Unit State
  | .resetBh =>
      match s.boot with
      | .resetBh => .ok { s with counterBh := 0, boot := .resetTh }
      | _ => .error ()
  | .resetTh =>
      match s.boot with
      | .resetTh => .ok { s with counterTh := 0, boot := .request }
      | _ => .error ()
  | .request granted =>
      match s.boot with
      | .request => .ok { s with boot := if granted then .loaded else .failed }
      | _ => .error ()
  | .incTh =>
      match s.boot, s.handler with
      | .loaded, .idle => .ok { s with counterTh := atomicInc s.counterTh, handler := .counted }
      | _, _ => .error ()
  | .setCond =>
      match s.handler with
      | .counted => .ok { s with cond := 1, handler := .raised }
      | _ => .error ()
  | .wakeUp =>
      match s.handler with
      | .raised => .ok { s with thread := s.thread.wake, handler := .idle }
      | _ => .error ()
  | .clear =>
      match s.thread with
      | .top => .ok { s with cond := 0, thread := .waiting }
      | _ => .error ()
  | .test =>
      match s.thread with
      | .waiting => .ok { s with
          thread := if s.shouldStop = true ∨ s.cond ≠ 0 then .passed else .asleep }
      | _ => .error ()
  | .recheck =>
      match s.thread with
      | .passed => .ok { s with thread := if s.cond ≠ 0 then .counting else .bottom }
      | _ => .error ()
  | .incBh =>
      match s.thread with
      | .counting => .ok { s with counterBh := atomicInc s.counterBh, thread := .bottom }
      | _ => .error ()
  | .loop =>
      match s.thread with
      | .bottom => .ok { s with thread := if s.shouldStop then .exited else .top }
      | _ => .error ()
  | .stop => .ok { s with shouldStop := true, thread := s.thread.wake }

/-- No more bottom halves have been counted than top halves. -/
def Ordered (s : State) : Prop := s.counterBh ≤ s.counterTh

/-- The handler does not find `counter_th` at the largest `int`. -/
def Fits (s : State) (e : Event) : Prop :=
  e = .incTh → s.boot = .loaded → s.handler = .idle → s.counterTh < INT_MAX

/-- Between two bottom halves a handler has raised the flag. -/
def RaisedBetween (es : List Event) : Prop :=
  ∀ pre mid post, es = pre ++ .incBh :: (mid ++ .incBh :: post) → .setCond ∈ mid

end State

/-- The bottom half that the thread is going to count. -/
def ThreadPc.owed (cond : ℤ) : ThreadPc → ℤ
  | .waiting => if cond = 0 then 0 else 1
  | .asleep => if cond = 0 then 0 else 1
  | .passed => if cond = 0 then 0 else 1
  | .counting => 1
  | _ => 0

/-- The interrupt that has not yet raised the flag. -/
def IrqPc.unraised : IrqPc → ℤ
  | .counted => 1
  | _ => 0

theorem ThreadPc.owed_wake (cond : ℤ) (pc : ThreadPc) : pc.wake.owed cond = pc.owed cond := by
  cases pc <;> rfl

theorem ThreadPc.owed_nonneg (cond : ℤ) (pc : ThreadPc) : 0 ≤ pc.owed cond := by
  cases pc <;> simp only [owed] <;> first | decide | (split <;> decide)

/-- Raising the flag owes one bottom half at most. -/
theorem ThreadPc.owed_raise (cond : ℤ) (pc : ThreadPc) : pc.owed 1 ≤ pc.owed cond + 1 := by
  have hnonneg := pc.owed_nonneg cond
  have hone : pc.owed 1 ≤ 1 := by cases pc <;> decide
  omega

theorem IrqPc.unraised_nonneg (pc : IrqPc) : 0 ≤ pc.unraised := by cases pc <;> decide

namespace State

variable {s s' : State} {e : Event}

structure Inv (s : State) : Prop where
  quiet : s.boot ≠ .loaded → s.handler = .idle ∧ s.counterTh = 0
  nonneg : 0 ≤ s.counterBh
  le : s.counterTh ≤ INT_MAX
  account : s.counterBh + s.thread.owed s.cond + s.handler.unraised ≤ s.counterTh

theorem initial_inv : Inv initial where
  quiet _ := ⟨rfl, rfl⟩
  nonneg := le_refl _
  le := by decide
  account := by decide

theorem Inv.ordered (h : Inv s) : Ordered s := by
  have haccount := h.account
  have howed := s.thread.owed_nonneg s.cond
  have hunraised := s.handler.unraised_nonneg
  unfold Ordered
  omega

/-- What a step does; a step of the thread that counts nothing owes nothing more. -/
inductive Does (s : State) : Event → State → Prop
  | resetBh (h : s.boot = .resetBh) :
      Does s .resetBh { s with counterBh := 0, boot := .resetTh }
  | resetTh (h : s.boot = .resetTh) :
      Does s .resetTh { s with counterTh := 0, boot := .request }
  | request {boot : BootPc} (granted : Bool) (h : s.boot ≠ .loaded) :
      Does s (.request granted) { s with boot := boot }
  | incTh (hboot : s.boot = .loaded) (hhandler : s.handler = .idle) :
      Does s .incTh { s with counterTh := atomicInc s.counterTh, handler := .counted }
  | setCond (h : s.handler = .counted) : Does s .setCond { s with cond := 1, handler := .raised }
  | wakeUp (h : s.handler = .raised) :
      Does s .wakeUp { s with thread := s.thread.wake, handler := .idle }
  | incBh (h : s.thread = .counting) :
      Does s .incBh { s with counterBh := atomicInc s.counterBh, thread := .bottom }
  | moves {e : Event} {cond : ℤ} {shouldStop : Bool} {thread : ThreadPc}
      (h : thread.owed cond ≤ s.thread.owed s.cond) :
      Does s e { s with cond := cond, shouldStop := shouldStop, thread := thread }

theorem step_does (h : step s e = .ok s') : Does s e s' := by
  have howed := s.thread.owed_nonneg s.cond
  cases e with
  | resetBh =>
      simp only [step] at h
      split at h
      · next hboot =>
          cases h
          exact .resetBh hboot
      · cases h
  | resetTh =>
      simp only [step] at h
      split at h
      · next hboot =>
          cases h
          exact .resetTh hboot
      · cases h
  | request granted =>
      simp only [step] at h
      split at h
      · next hboot =>
          cases h
          exact .request granted (by simp [hboot])
      · cases h
  | incTh =>
      simp only [step] at h
      split at h
      · next hboot hhandler =>
          cases h
          exact .incTh hboot hhandler
      · cases h
  | setCond =>
      simp only [step] at h
      split at h
      · next hhandler =>
          cases h
          exact .setCond hhandler
      · cases h
  | wakeUp =>
      simp only [step] at h
      split at h
      · next hhandler =>
          cases h
          exact .wakeUp hhandler
      · cases h
  | clear =>
      simp only [step] at h
      split at h
      · cases h
        exact .moves howed
      · cases h
  | test =>
      simp only [step] at h
      split at h
      · next hthread =>
          cases h
          apply Does.moves
          rw [hthread]
          split
          · exact le_refl _
          · exact le_refl _
      · cases h
  | recheck =>
      simp only [step] at h
      split at h
      · next hthread =>
          cases h
          apply Does.moves
          rw [hthread]
          split
          · next hraised => simp [ThreadPc.owed, hraised]
          · next hclear => simp [ThreadPc.owed, not_not.mp hclear]
      · cases h
  | incBh =>
      simp only [step] at h
      split at h
      · next hthread =>
          cases h
          exact .incBh hthread
      · cases h
  | loop =>
      simp only [step] at h
      split at h
      · next hthread =>
          cases h
          apply Does.moves
          rw [hthread]
          split
          · exact le_refl _
          · exact le_refl _
      · cases h
  | stop =>
      cases h
      apply Does.moves
      rw [ThreadPc.owed_wake]

theorem step_inv (hi : Inv s) (hC : Fits s e) (h : step s e = .ok s') : Inv s' := by
  have haccount := hi.account
  have hnonneg := hi.nonneg
  have howed := s.thread.owed_nonneg s.cond
  cases step_does h with
  | resetBh hboot =>
      obtain ⟨hidle, hzero⟩ := hi.quiet (by simp [hboot])
      refine ⟨fun _ => ⟨hidle, hzero⟩, le_refl _, hi.le, ?_⟩
      simp only
      omega
  | resetTh hboot =>
      obtain ⟨hidle, hzero⟩ := hi.quiet (by simp [hboot])
      refine ⟨fun _ => ⟨hidle, rfl⟩, hnonneg, (by decide : (0 : ℤ) ≤ INT_MAX), ?_⟩
      simp only
      omega
  | request granted hboot => exact ⟨fun _ => hi.quiet hboot, hnonneg, hi.le, haccount⟩
  | incTh hboot hhandler =>
      have hroom := hC rfl hboot hhandler
      simp only [hhandler, IrqPc.unraised] at haccount
      have hinc := atomicInc_of_lt (by omega) hroom
      refine ⟨fun hnot => absurd hboot hnot, hnonneg, ?_, ?_⟩
      · simp only [hinc]
        omega
      · simp only [hinc, IrqPc.unraised]
        omega
  | setCond hhandler =>
      have hraise := ThreadPc.owed_raise s.cond s.thread
      simp only [hhandler, IrqPc.unraised] at haccount
      refine ⟨fun hnot => ?_, hnonneg, hi.le, ?_⟩
      · have hidle := (hi.quiet hnot).1
        rw [hhandler] at hidle
        cases hidle
      · simp only [IrqPc.unraised]
        omega
  | wakeUp hhandler =>
      simp only [hhandler, IrqPc.unraised] at haccount
      refine ⟨fun hnot => ⟨rfl, (hi.quiet hnot).2⟩, hnonneg, hi.le, ?_⟩
      simp only [ThreadPc.owed_wake, IrqPc.unraised]
      omega
  | incBh hthread =>
      have hunraised := s.handler.unraised_nonneg
      have hle := hi.le
      simp only [hthread, ThreadPc.owed] at haccount
      have hinc := atomicInc_of_lt hnonneg (by omega)
      refine ⟨hi.quiet, ?_, hle, ?_⟩
      · simp only [hinc]
        omega
      · simp only [hinc, ThreadPc.owed]
        omega
  | moves hmove =>
      refine ⟨hi.quiet, hnonneg, hi.le, ?_⟩
      simp only
      omega

/-! ## The flag between two bottom halves -/

/-- The thread has to find the flag raised before it counts. -/
def Unraised (s : State) : Prop := s.thread.owed s.cond = 0

theorem step_unraised (hs : Unraised s) (he : e ≠ .setCond) (h : step s e = .ok s') :
    Unraised s' := by
  cases step_does h with
  | setCond _ => exact absurd rfl he
  | wakeUp _ => exact (s.thread.owed_wake s.cond).trans hs
  | incBh _ => rfl
  | moves hmove => exact le_antisymm (hmove.trans hs.le) (ThreadPc.owed_nonneg _ _)
  | _ => exact hs

theorem raisedBetween_of_exec {es : List Event} (h : Runs.exec step s es = .ok s') :
    RaisedBetween es := by
  rintro pre mid post rfl
  obtain ⟨_, t₁, -, hfirst, hrest⟩ := Runs.exec_append_cons h
  obtain ⟨t₂, _, hmid, hsecond, -⟩ := Runs.exec_append_cons hrest
  have hstart : Unraised t₁ := by
    simp only [step] at hfirst
    split at hfirst
    · cases hfirst
      rfl
    · cases hfirst
  have hcounting : ¬ Unraised t₂ := by
    intro hunraised
    simp only [step] at hsecond
    split at hsecond
    · next hthread => simp [Unraised, hthread, ThreadPc.owed] at hunraised
    · cases hsecond
  obtain ⟨e, he, rfl⟩ := Runs.exists_of_leaves (E := fun e => e = .setCond)
    (fun _ _ _ => step_unraised) hstart hmid hcounting
  exact he

/-- In every interleaving the order of the counters holds in every state exactly when
`counter_th` is never incremented past the largest `int`, and no two bottom halves are
counted for one raising of the flag. -/
theorem ordered_iff (es : List Event) :
    (Runs.Always step Ordered initial es ↔ Runs.Along step Fits initial es) ∧
      ∀ s, Runs.exec step initial es = .ok s → RaisedBetween es := by
  refine ⟨?_, fun s h => raisedBetween_of_exec h⟩
  apply Runs.always_iff_along (I := Inv)
  · intro s hi
    exact hi.ordered
  · intro s e s' hi hC h
    exact step_inv hi hC h
  · intro s e hi hC
    simp only [Fits] at hC
    push Not at hC
    obtain ⟨rfl, hboot, hhandler, hfull⟩ := hC
    have hlast : s.counterTh = INT_MAX := le_antisymm hi.le hfull
    have hnonneg := hi.nonneg
    refine ⟨{ s with counterTh := -2147483648, handler := .counted }, ?_, ?_⟩
    · simp only [step, hboot, hhandler, hlast]
      rfl
    · simp only [Ordered]
      omega
  · exact initial_inv

/-- Interrupts while the thread does not get to run. -/
def pileUp : ℕ → List Event
  | 0 => []
  | n + 1 => .incTh :: .setCond :: .wakeUp :: pileUp n

theorem exec_pileUp (n : ℕ) (hboot : s.boot = .loaded) (hhandler : s.handler = .idle)
    (hrange : toInt32 s.counterTh = s.counterTh) :
    ∃ s', Runs.exec step s (pileUp n) = .ok s' ∧ s'.counterBh = s.counterBh ∧
      s'.counterTh = toInt32 (s.counterTh + n) := by
  induction n generalizing s with
  | zero => exact ⟨s, rfl, rfl, by simp [hrange]⟩
  | succ n ih =>
      obtain ⟨s', hexec, hbh, hth⟩ := ih (s := { s with
        counterTh := atomicInc s.counterTh
        cond := 1
        boot := .loaded
        handler := .idle
        thread := s.thread.wake }) rfl rfl (toInt32_idem _)
      refine ⟨s', ?_, hbh, ?_⟩
      · simp only [pileUp, Runs.exec_cons, step, hboot, hhandler, Outcome.ok_bind]
        exact hexec
      · rw [hth, atomicInc, toInt32_toInt32_add, add_assoc, add_comm (1 : ℤ), Nat.cast_succ]

/-- With `2 ^ 31` interrupts `counter_th` is negative and `counter_bh` is not. -/
theorem pileUp_disorders :
    ∃ s, Runs.exec step initial
        ([.resetBh, .resetTh, .request true] ++ pileUp 2147483648) = .ok s ∧
      s.counterBh = 0 ∧ s.counterTh = -2147483648 ∧ ¬ Ordered s := by
  obtain ⟨s, hexec, hbh, hth⟩ := exec_pileUp (s := { initial with boot := .loaded }) 2147483648
    rfl rfl rfl
  have hzero : s.counterBh = 0 := hbh
  have hwrapped : s.counterTh = -2147483648 := hth
  have hloaded : Runs.exec step initial [.resetBh, .resetTh, .request true] =
      .ok { initial with boot := .loaded } := rfl
  refine ⟨s, ?_, hzero, hwrapped, ?_⟩
  · rw [Runs.exec_append, hloaded, Outcome.ok_bind]
    exact hexec
  · unfold Ordered
    omega

end State

end LddSamples.Interrupts.OneThread

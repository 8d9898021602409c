import LddSamples.Kernel.Basic
import LddSamples.Library.Runs

/-!
# lab9_one_threaded: a handler and its IRQ thread

`my_interrupt` counts the interrupt and then queues an event; `thread_fun` counts
an event and then takes it off, until none is left. Each atomic operation is a step.
-/

namespace LddSamples.Interrupts.OneThreaded

open Kernel CArith

/-- Where `my_interrupt` stands: `counted` is between its two counters, `returning`
after both and before its `IRQ_WAKE_THREAD`. -/
inductive IrqPc
  | idle
  | counted
  | returning

/-- Where `thread_fun` stands: about to increment `counter_bh`, or between its two
counters. -/
inductive ThreadPc
  | waiting
  | counting
  | counted

structure State where
  counterTh : ℤ
  counterBh : ℤ
  nevents : ℤ
  runThread : Bool
  irq : IrqPc
  thread : ThreadPc

inductive Event
  | incTh
  | incNevents
  | wakeThread
  | start
  | incBh
  | decAndTest

namespace State

def initial : State := ⟨0, 0, 0, false, .idle, .waiting⟩

def step (s : State) : Event → Except Unit State
  | .incTh =>
      match s.irq with
      | .idle => .ok { s with counterTh := atomicInc s.counterTh, irq := .counted }
      | _ => .error ()
  | .incNevents =>
      match s.irq with
      | .counted => .ok { s with nevents := atomicInc s.nevents, irq := .returning }
      | _ => .error ()
  | .wakeThread =>
      match s.irq with
      | .returning => .ok { s with runThread := true, irq := .idle }
      | _ => .error ()
  | .start =>
      match s.thread, s.runThread with
      | .waiting, true => .ok { s with runThread := false, thread := .counting }
      | _, _ => .error ()
  | .incBh =>
      match s.thread with
      | .counting => .ok { s with counterBh := atomicInc s.counterBh, thread := .counted }
      | _ => .error ()
  | .decAndTest =>
      match s.thread with
      | .counted => .ok { s with
          nevents := atomicDec s.nevents
          thread := if atomicDec s.nevents = 0 then .waiting else .counting }
      | _ => .error ()

/-- No event is owed, none is counted before it arrived, and none is forgotten
between updates. -/
def Balanced (s : State) : Prop :=
  0 ≤ s.nevents ∧ s.counterBh ≤ s.counterTh ∧
    (s.irq ≠ .counted → s.thread ≠ .counted → s.counterBh + s.nevents = s.counterTh)

/-- The thread is started with an event to process, and `counter_th` has not reached
the largest `int` when it is incremented. -/
def StartsWithWork (s : State) (e : Event) : Prop :=
  (e = .start → s.thread = .waiting → s.runThread = true → 0 < s.nevents) ∧
    (e = .incTh → s.irq = .idle → s.counterTh < INT_MAX)

end State

@[simp] def IrqPc.unqueued : IrqPc → ℤ
  | .counted => 1
  | _ => 0

@[simp] def ThreadPc.untaken : ThreadPc → ℤ
  | .counted => 1
  | _ => 0

theorem IrqPc.unqueued_nonneg (pc : IrqPc) : 0 ≤ pc.unqueued := by cases pc <;> simp

theorem ThreadPc.untaken_nonneg (pc : ThreadPc) : 0 ≤ pc.untaken := by cases pc <;> simp

namespace State

variable {s s' : State} {e : Event}

structure Inv (s : State) : Prop where
  sum : s.counterBh - s.thread.untaken + s.nevents = s.counterTh - s.irq.unqueued
  processed : s.thread.untaken ≤ s.counterBh
  range : s.counterTh ≤ INT_MAX
  nonneg : 0 ≤ s.nevents
  busy : s.thread ≠ .waiting → 0 < s.nevents

theorem inv_initial : Inv initial := by
  constructor <;> simp [initial, INT_MAX]

theorem Inv.balanced (h : Inv s) : Balanced s := by
  obtain ⟨hsum, hprocessed, hrange, hnonneg, hbusy⟩ := h
  refine ⟨hnonneg, ?_, fun hirq hthread => ?_⟩
  · have hirq := s.irq.unqueued_nonneg
    -- between its counters the thread is one ahead, and an event is still queued
    have hthread : s.thread.untaken ≤ s.nevents := by
      cases hpc : s.thread with
      | counted => exact hbusy (by simp [hpc])
      | waiting => exact hnonneg
      | counting => exact hnonneg
    omega
  · have hirq : s.irq.unqueued = 0 := by
      cases hpc : s.irq with
      | counted => exact absurd hpc hirq
      | idle => rfl
      | returning => rfl
    have hthread : s.thread.untaken = 0 := by
      cases hpc : s.thread with
      | counted => exact absurd hpc hthread
      | waiting => rfl
      | counting => rfl
    omega

theorem step_inv (hi : Inv s) (hC : StartsWithWork s e) (h : step s e = .ok s') : Inv s' := by
  have hle : s.counterBh ≤ s.counterTh := hi.balanced.2.1
  obtain ⟨hsum, hprocessed, hrange, hnonneg, hbusy⟩ := hi
  cases e with
  | incTh =>
      simp only [step] at h
      split at h
      · next hirq =>
          have hroom := hC.2 rfl hirq
          have huntaken := s.thread.untaken_nonneg
          have hth : 0 ≤ s.counterTh := by omega
          cases h
          simp only [hirq, IrqPc.unqueued] at hsum
          rw [atomicInc_of_lt hth hroom]
          have hnext : s.counterTh + 1 ≤ INT_MAX := by omega
          exact ⟨by simp only [IrqPc.unqueued]; omega, hprocessed, hnext, hnonneg, hbusy⟩
      · cases h
  | incNevents =>
      simp only [step] at h
      split at h
      · next hirq =>
          cases h
          simp only [hirq, IrqPc.unqueued] at hsum
          rw [atomicInc_of_lt hnonneg (by omega)]
          have hqueued : 0 < s.nevents + 1 := by omega
          exact ⟨by simp only [IrqPc.unqueued]; omega, hprocessed, hrange, le_of_lt hqueued,
            fun _ => hqueued⟩
      · cases h
  | wakeThread =>
      simp only [step] at h
      split at h
      · next hirq =>
          cases h
          rw [hirq] at hsum
          exact ⟨hsum, hprocessed, hrange, hnonneg, hbusy⟩
      · cases h
  | start =>
      simp only [step] at h
      split at h
      · next hthread hrun =>
          have hwork := hC.1 rfl hthread hrun
          cases h
          rw [hthread] at hsum hprocessed
          exact ⟨hsum, hprocessed, hrange, hnonneg, fun _ => hwork⟩
      · cases h
  | incBh =>
      simp only [step] at h
      split at h
      · next hthread =>
          have hwork := hbusy (by simp [hthread])
          have hirq := s.irq.unqueued_nonneg
          cases h
          simp only [hthread, ThreadPc.untaken] at hsum hprocessed
          rw [atomicInc_of_lt hprocessed (by omega)]
          exact ⟨by simp only [ThreadPc.untaken]; omega, by simp only [ThreadPc.untaken]; omega,
            hrange, hnonneg, fun _ => hwork⟩
      · cases h
  | decAndTest =>
      simp only [step] at h
      split at h
      · next hthread =>
          have hwork := hbusy (by simp [hthread])
          have hirq := s.irq.unqueued_nonneg
          cases h
          simp only [hthread, ThreadPc.untaken] at hsum hprocessed
          rw [atomicDec_of_mem hnonneg (by omega)]
          have htaken :
              (if s.nevents - 1 = 0 then ThreadPc.waiting else .counting).untaken = 0 := by
            split <;> rfl
          have hleft : 0 ≤ s.nevents - 1 := by omega
          refine ⟨by rw [htaken]; simp only; omega, by rw [htaken]; simp only; omega, hrange,
            hleft, ?_⟩
          intro hmore
          have hne : s.nevents - 1 ≠ 0 := by
            intro hzero
            exact hmore (if_pos hzero)
          exact lt_of_le_of_ne hleft hne.symm
      · cases h

/-- A thread that is started with nothing queued takes off an event that is not
there; a `counter_th` at its limit wraps. -/
theorem idle_start_unbalances (hi : Inv s) (hC : ¬ StartsWithWork s e) :
    ∃ fs, ¬ Runs.Always step Balanced s (e :: fs) := by
  obtain ⟨hsum, hprocessed, hrange, hnonneg, hbusy⟩ := hi
  rcases not_and_or.mp hC with hC | hC
  · push Not at hC
    obtain ⟨rfl, hthread, hrun, hnone⟩ := hC
    have hzero : s.nevents = 0 := le_antisymm hnone hnonneg
    refine ⟨[.incBh, .decAndTest], ?_⟩
    have hexec : Runs.exec step s [.start, .incBh, .decAndTest] = .ok { s with
        runThread := false
        counterBh := atomicInc s.counterBh
        nevents := -1
        thread := .counting } := by
      simp [step, hthread, hrun, hzero, atomicDec, toInt32]
    apply Runs.not_always_of_exec hexec
    rintro ⟨howed, -⟩
    simp at howed
  · push Not at hC
    obtain ⟨rfl, hirq, hfull⟩ := hC
    have hmax : s.counterTh = INT_MAX := le_antisymm hrange hfull
    refine ⟨[], ?_⟩
    have hexec : Runs.exec step s [.incTh] = .ok { s with
        counterTh := -2147483648
        irq := .counted } := by
      simp [step, hirq, hmax, atomicInc, toInt32, INT_MAX]
    apply Runs.not_always_of_exec hexec
    rintro ⟨-, hle, -⟩
    have hpos : 0 ≤ s.counterBh := s.thread.untaken_nonneg.trans hprocessed
    simp only at hle
    omega

/-- Runs that start the thread only with an event to process stay balanced, and a run that
starts it with none breaks there. -/
theorem balanced_of_starts (es : List Event) :
    (Runs.Along step StartsWithWork initial es → Runs.Always step Balanced initial es) ∧
      (¬ Runs.Along step StartsWithWork initial es →
        Runs.Breaks step StartsWithWork Balanced initial es) := by
  apply Runs.always_or_breaks (I := Inv)
  · intro s hi
    exact hi.balanced
  · intro s e s' hi hC h
    exact step_inv hi hC h
  · intro s e hi hC
    exact idle_start_unbalances hi hC
  · exact inv_initial

/-- The second interrupt arrives while the thread drains and is drained with the
first; the thread is run again for it, with nothing left to do. -/
theorem rerun_finds_nothing :
    ∃ s, Runs.exec step initial
        [.incTh, .incNevents, .wakeThread, .start, .incTh, .incNevents, .wakeThread,
          .incBh, .decAndTest, .incBh, .decAndTest, .start, .incBh, .decAndTest] = .ok s ∧
      s.nevents = -1 ∧ s.counterTh = 2 ∧ s.counterBh = 3 ∧ ¬ Balanced s := by
  refine ⟨_, rfl, rfl, rfl, rfl, ?_⟩
  rintro ⟨howed, -⟩
  exact absurd howed (by decide)

end State

end LddSamples.Interrupts.OneThreaded

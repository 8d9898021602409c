import LddSamples.Kernel.Basic
import LddSamples.Library.Runs

/-!
# lab5_one_thread_improved: a handler and the thread that drains its events

`my_interrupt` queues an event, counts it, raises `cond` and wakes the thread.
`thr_fun` clears `cond`, waits for it and then drains `nevents`. A test of `cond`
that fails and going to sleep are one step, every other atomic operation is one too.
-/

namespace LddSamples.Interrupts.OneThreadImproved

open Kernel CArith

/-- Where `my_interrupt` stands, by the last thing it did. -/
inductive IrqPc
  | idle
  | queued
  | counted
  | raised

/-- Where `thr_fun` stands, by what it does next. -/
inductive ThreadPc
  | clearing
  | waiting
  | asleep (woken : Bool)
  | checking
  | counting
  | taking
  | missing

def ThreadPc.wake : ThreadPc → ThreadPc
  | .asleep _ => .asleep true
  | pc => pc

structure State where
  cond : Bool
  nevents : ℤ
  catchup : ℤ
  counterTh : ℤ
  counterBh : ℤ
  irq : IrqPc
  thread : ThreadPc

inductive Event
  | incNevents
  | incTh
  | setCond
  | wakeUp
  | clearCond
  | test
  | checkNevents
  | incBh
  | decAndTest
  | incCatchup

namespace State

/-- The module is loaded and the thread has been created, and has not run yet. -/
def initial : State := ⟨true, 0, 0, 0, 0, .idle, .clearing⟩

/-- One turn of `wait_event_interruptible(wq, kthread_should_stop() || atomic_read(&cond))`. -/
def settle (s : State) : State :=
  { s with thread := if s.cond then .checking else .asleep false }

def step (s : State) : Event → Except Unit State
  | .incNevents =>
      match s.irq with
      | .idle => .ok { s with nevents := atomicInc s.nevents, irq := .queued }
      | _ => .error ()
  | .incTh =>
      match s.irq with
      | .queued => .ok { s with counterTh := atomicInc s.counterTh, irq := .counted }
      | _ => .error ()
  | .setCond =>
      match s.irq with
      | .counted => .ok { s with cond := true, irq := .raised }
      | _ => .error ()
  | .wakeUp =>
      match s.irq with
      | .raised => .ok { s with thread := s.thread.wake, irq := .idle }
      | _ => .error ()
  | .clearCond =>
      match s.thread with
      | .clearing => .ok { s with cond := false, thread := .waiting }
      | _ => .error ()
  | .test =>
      match s.thread with
      | .waiting => .ok s.settle
      | .asleep true => .ok s.settle
      | _ => .error ()
  | .checkNevents =>
      match s.thread with
      | .checking => .ok { s with thread := if s.nevents ≤ 0 then .clearing else .counting }
      | _ => .error ()
  | .incBh =>
      match s.thread with
      | .counting => .ok { s with counterBh := atomicInc s.counterBh, thread := .taking }
      | _ => .error ()
  | .decAndTest =>
      match s.thread with
      | .taking => .ok { s with
          nevents := atomicDec s.nevents
          thread := if atomicDec s.nevents = 0 then .clearing else .missing }
      | _ => .error ()
  | .incCatchup =>
      match s.thread with
      | .missing => .ok { s with catchup := atomicInc s.catchup, thread := .counting }
      | _ => .error ()

/-- While the thread sleeps, with no wakeup on its way and no handler running, nothing
is left to process. -/
def Processed (s : State) : Prop :=
  s.thread = .asleep false → s.irq = .idle → s.nevents = 0 ∧ s.counterBh = s.counterTh

/-- `cond` is cleared with nothing queued, or while a handler has still to raise it. -/
def ClearsInTime (s : State) (e : Event) : Prop :=
  e = .clearCond → s.thread = .clearing →
    s.nevents = 0 ∨ s.irq = .queued ∨ s.irq = .counted

end State

@[simp] def IrqPc.uncounted : IrqPc → ℤ
  | .queued => 1
  | _ => 0

@[simp] def ThreadPc.untaken : ThreadPc → ℤ
  | .taking => 1
  | _ => 0

def ThreadPc.Waits : ThreadPc → Prop
  | .waiting => True
  | .asleep _ => True
  | _ => False

@[simp] theorem ThreadPc.wake_untaken (pc : ThreadPc) : pc.wake.untaken = pc.untaken := by
  cases pc <;> rfl

theorem ThreadPc.Waits.of_wake {pc : ThreadPc} (h : pc.wake.Waits) : pc.Waits := by
  cases pc <;> exact h

theorem ThreadPc.wake_ne_asleep (pc : ThreadPc) : pc.wake ≠ .asleep false := by
  cases pc <;> simp [wake]

namespace State

variable {s s' : State} {e : Event}

inductive Does (s : State) : Event → State → Prop
  | incNevents (h : s.irq = .idle) :
      Does s .incNevents { s with nevents := atomicInc s.nevents, irq := .queued }
  | incTh (h : s.irq = .queued) :
      Does s .incTh { s with counterTh := atomicInc s.counterTh, irq := .counted }
  | setCond (h : s.irq = .counted) : Does s .setCond { s with cond := true, irq := .raised }
  | wakeUp (h : s.irq = .raised) : Does s .wakeUp { s with thread := s.thread.wake, irq := .idle }
  | clearCond (h : s.thread = .clearing) :
      Does s .clearCond { s with cond := false, thread := .waiting }
  | pass (h : s.thread = .waiting ∨ s.thread = .asleep true) (hcond : s.cond = true) :
      Does s .test { s with thread := .checking }
  | sleep (h : s.thread = .waiting ∨ s.thread = .asleep true) (hcond : s.cond = false) :
      Does s .test { s with thread := .asleep false }
  | spurious (h : s.thread = .checking) (hnone : s.nevents ≤ 0) :
      Does s .checkNevents { s with thread := .clearing }
  | drain (h : s.thread = .checking) (hsome : 0 < s.nevents) :
      Does s .checkNevents { s with thread := .counting }
  | incBh (h : s.thread = .counting) :
      Does s .incBh { s with counterBh := atomicInc s.counterBh, thread := .taking }
  | last (h : s.thread = .taking) (hlast : atomicDec s.nevents = 0) :
      Does s .decAndTest { s with nevents := atomicDec s.nevents, thread := .clearing }
  | more (h : s.thread = .taking) (hmore : atomicDec s.nevents ≠ 0) :
      Does s .decAndTest { s with nevents := atomicDec s.nevents, thread := .missing }
  | incCatchup (h : s.thread = .missing) :
      Does s .incCatchup { s with catchup := atomicInc s.catchup, thread := .counting }

theorem settle_does (h : s.thread = .waiting ∨ s.thread = .asleep true) :
    Does s .test s.settle := by
  unfold settle
  split
  · next hcond => exact .pass h hcond
  · next hcond => exact .sleep h (by simpa using hcond)

theorem step_does (h : step s e = .ok s') : Does s e s' := by
  cases e with
  | incNevents =>
      simp only [step] at h
      split at h
      · next hirq =>
          cases h
          exact .incNevents hirq
      · cases h
  | incTh =>
      simp only [step] at h
      split at h
      · next hirq =>
          cases h
          exact .incTh hirq
      · cases h
  | setCond =>
      simp only [step] at h
      split at h
      · next hirq =>
          cases h
          exact .setCond hirq
      · cases h
  | wakeUp =>
      simp only [step] at h
      split at h
      · next hirq =>
          cases h
          exact .wakeUp hirq
      · cases h
  | clearCond =>
      simp only [step] at h
      split at h
      · next hthread =>
          cases h
          exact .clearCond hthread
      · cases h
  | test =>
      simp only [step] at h
      split at h
      · next hthread =>
          cases h
          exact settle_does (.inl hthread)
      · next hthread =>
          cases h
          exact settle_does (.inr hthread)
      · cases h
  | checkNevents =>
      simp only [step] at h
      split at h
      · next hthread =>
          cases h
          split
          · next hnone => exact .spurious hthread hnone
          · next hsome => exact .drain hthread (not_le.mp hsome)
      · cases h
  | incBh =>
      simp only [step] at h
      split at h
      · next hthread =>
          cases h
          exact .incBh hthread
      · cases h
  | decAndTest =>
      simp only [step] at h
      split at h
      · next hthread =>
          cases h
          split
          · next hlast => exact .last hthread hlast
          · next hmore => exact .more hthread hmore
      · cases h
  | incCatchup =>
      simp only [step] at h
      split at h
      · next hthread =>
          cases h
          exact .incCatchup hthread
      · cases h

/-- The counters agree as far as an `int` can tell. -/
def Tallies (s : State) : Prop :=
  (s.counterBh - s.thread.untaken + (s.nevents - s.irq.uncounted) - s.counterTh) % 4294967296 = 0

def InRange (s : State) : Prop :=
  toInt32 s.counterTh = s.counterTh ∧ toInt32 s.counterBh = s.counterBh

structure Inv (s : State) : Prop where
  tallies : s.Tallies
  inRange : s.InRange
  quiet : s.thread.Waits → s.cond = false → s.nevents = 0 ∨ s.irq = .queued ∨ s.irq = .counted
  raised : s.thread = .asleep false → s.cond = true → s.irq = .raised

theorem inv_initial : Inv initial where
  tallies := rfl
  inRange := ⟨rfl, rfl⟩
  quiet h := h.elim
  raised h := by cases h

theorem Inv.processed (h : Inv s) : Processed s := by
  intro hsleep hidle
  have hcond : s.cond = false := by
    by_contra hcond
    have hraised := h.raised hsleep (by simpa using hcond)
    rw [hidle] at hraised
    cases hraised
  have hnone : s.nevents = 0 := by
    have hquiet := h.quiet (by rw [hsleep]; trivial) hcond
    simpa [hidle] using hquiet
  have htally := h.tallies
  obtain ⟨hth, hbh⟩ := h.inRange
  simp only [Tallies, hsleep, hidle, hnone, ThreadPc.untaken, IrqPc.uncounted] at htally
  refine ⟨hnone, ?_⟩
  rw [← hth, ← hbh, toInt32_eq_toInt32_iff]
  omega

theorem step_tallies (hi : Tallies s) (h : step s e = .ok s') : Tallies s' := by
  unfold Tallies at hi ⊢
  cases step_does h with
  | incNevents hirq =>
      have hinc := atomicInc_emod s.nevents
      simp only [hirq, IrqPc.uncounted] at hi ⊢
      omega
  | incTh hirq =>
      have hinc := atomicInc_emod s.counterTh
      simp only [hirq, IrqPc.uncounted] at hi ⊢
      omega
  | setCond hirq =>
      rw [hirq] at hi
      exact hi
  | wakeUp hirq =>
      rw [hirq] at hi
      rw [ThreadPc.wake_untaken]
      exact hi
  | clearCond hthread =>
      rw [hthread] at hi
      exact hi
  | pass hthread _ =>
      rcases hthread with hthread | hthread <;> rw [hthread] at hi <;> exact hi
  | sleep hthread _ =>
      rcases hthread with hthread | hthread <;> rw [hthread] at hi <;> exact hi
  | spurious hthread _ =>
      rw [hthread] at hi
      exact hi
  | drain hthread _ =>
      rw [hthread] at hi
      exact hi
  | incBh hthread =>
      have hinc := atomicInc_emod s.counterBh
      simp only [hthread, ThreadPc.untaken] at hi ⊢
      omega
  | last hthread _ =>
      have hdec := atomicDec_emod s.nevents
      simp only [hthread, ThreadPc.untaken] at hi ⊢
      omega
  | more hthread _ =>
      have hdec := atomicDec_emod s.nevents
      simp only [hthread, ThreadPc.untaken] at hi ⊢
      omega
  | incCatchup hthread =>
      rw [hthread] at hi
      exact hi

theorem step_inRange (hi : InRange s) (h : step s e = .ok s') : InRange s' := by
  cases step_does h with
  | incTh _ => exact ⟨toInt32_idem _, hi.2⟩
  | incBh _ => exact ⟨hi.1, toInt32_idem _⟩
  | _ => exact hi

/-- Only the clear of `cond` can leave the thread to wait on events already queued. -/
theorem step_quiet (hi : Inv s) (hC : ClearsInTime s e) (h : step s e = .ok s') :
    s'.thread.Waits → s'.cond = false → s'.nevents = 0 ∨ s'.irq = .queued ∨ s'.irq = .counted := by
  cases step_does h with
  | incNevents hirq =>
      intro _ _
      exact .inr (.inl rfl)
  | incTh hirq =>
      intro _ _
      exact .inr (.inr rfl)
  | setCond hirq =>
      intro _ hcond
      cases hcond
  | wakeUp hirq =>
      intro hwaits hcond
      have hquiet := hi.quiet hwaits.of_wake hcond
      simp only [hirq, reduceCtorEq, or_false] at hquiet
      exact .inl hquiet
  | clearCond hthread =>
      intro _ _
      exact hC rfl hthread
  | pass _ hset =>
      intro _ hcond
      rw [hset] at hcond
      cases hcond
  | sleep hthread _ =>
      intro _ hcond
      apply hi.quiet _ hcond
      rcases hthread with hthread | hthread <;> rw [hthread] <;> trivial
  | spurious _ _ => exact fun hwaits => hwaits.elim
  | drain _ _ => exact fun hwaits => hwaits.elim
  | incBh _ => exact fun hwaits => hwaits.elim
  | last _ _ => exact fun hwaits => hwaits.elim
  | more _ _ => exact fun hwaits => hwaits.elim
  | incCatchup _ => exact fun hwaits => hwaits.elim

theorem step_raised (hi : Inv s) (h : step s e = .ok s') :
    s'.thread = .asleep false → s'.cond = true → s'.irq = .raised := by
  cases step_does h with
  | incNevents hirq =>
      intro hsleep hcond
      have hraised := hi.raised hsleep hcond
      rw [hirq] at hraised
      cases hraised
  | incTh hirq =>
      intro hsleep hcond
      have hraised := hi.raised hsleep hcond
      rw [hirq] at hraised
      cases hraised
  | setCond hirq =>
      intro _ _
      rfl
  | wakeUp hirq =>
      intro hsleep
      exact absurd hsleep (ThreadPc.wake_ne_asleep _)
  | sleep _ hclear =>
      intro _ hcond
      rw [hclear] at hcond
      cases hcond
  | _ =>
      intro hsleep
      cases hsleep

theorem step_inv (hi : Inv s) (hC : ClearsInTime s e) (h : step s e = .ok s') : Inv s' where
  tallies := step_tallies hi.tallies h
  inRange := step_inRange hi.inRange h
  quiet := step_quiet hi hC h
  raised := step_raised hi h

theorem late_clear_sleeps (hC : ¬ ClearsInTime s e) :
    ∃ fs, ¬ Runs.Always step Processed s (e :: fs) := by
  simp only [ClearsInTime, not_forall, not_or] at hC
  obtain ⟨rfl, hthread, hqueued, hearly⟩ := hC
  cases hirq : s.irq with
  | idle =>
      refine ⟨[.test], ?_⟩
      have hexec : Runs.exec step s [.clearCond, .test] =
          .ok { s with cond := false, thread := .asleep false } := by
        simp [step, hthread, settle]
      apply Runs.not_always_of_exec hexec
      intro hprocessed
      exact hqueued (hprocessed rfl hirq).1
  | raised =>
      refine ⟨[.wakeUp, .test], ?_⟩
      have hexec : Runs.exec step s [.clearCond, .wakeUp, .test] =
          .ok { s with cond := false, irq := .idle, thread := .asleep false } := by
        simp [step, hthread, hirq, settle, ThreadPc.wake]
      apply Runs.not_always_of_exec hexec
      intro hprocessed
      exact hqueued (hprocessed rfl rfl).1
  | queued => exact absurd hirq hearly.1
  | counted => exact absurd hirq hearly.2

/-- Runs that clear `cond` only in time leave no interrupt unprocessed, and a run that clears it
late breaks at the first late clear. -/
theorem processed_of_clears (es : List Event) :
    (Runs.Along step ClearsInTime initial es → Runs.Always step Processed initial es) ∧
      (¬ Runs.Along step ClearsInTime initial es →
        Runs.Breaks step ClearsInTime Processed initial es) := by
  apply Runs.always_or_breaks (I := Inv)
  · intro s hi
    exact hi.processed
  · intro s e s' hi hC h
    exact step_inv hi hC h
  · intro s e _ hC
    exact late_clear_sleeps hC
  · exact inv_initial

/-- An interrupt that arrives after the last decrement of a drain is over before the
thread clears `cond`, and the thread sleeps on it. -/
theorem interrupt_after_drain :
    ∃ s, Runs.exec step initial
        [.clearCond, .test, .incNevents, .incTh, .setCond, .wakeUp, .test, .checkNevents,
          .incBh, .decAndTest, .incNevents, .incTh, .setCond, .wakeUp, .clearCond, .test] = .ok s ∧
      s.thread = .asleep false ∧ s.irq = .idle ∧ s.nevents = 1 ∧ s.counterTh = 2 ∧
        s.counterBh = 1 ∧ ¬ Processed s := by
  refine ⟨_, rfl, rfl, rfl, rfl, rfl, rfl, ?_⟩
  intro hprocessed
  exact absurd (hprocessed rfl rfl).1 (by decide)

end State

end LddSamples.Interrupts.OneThreadImproved

import LddSamples.Kernel.Basic
import LddSamples.Library.Runs

/-!
# lab5_one_tasklet_improved: a handler and the tasklet that drains its events

`my_interrupt` counts the interrupt, queues an event and schedules the tasklet.
`t_fun` looks whether anything is queued, and then counts an event and takes it off
until none is left. Each atomic operation is a step.
-/

namespace LddSamples.Interrupts.OneTaskletImproved

open Kernel CArith

/-- Where `my_interrupt` stands, by the last thing it did. -/
inductive IrqPc
  | idle
  | counted
  | queued

/-- Where `t_fun` stands, by what it does next. -/
inductive TaskletPc
  | idle
  | checking
  | counting
  | taking
  | missing

structure State where
  nevents : ℤ
  catchup : ℤ
  counterTh : ℤ
  counterBh : ℤ
  pending : Bool
  irq : IrqPc
  tasklet : TaskletPc

inductive Event
  | incTh
  | incNevents
  | schedule
  | run
  | checkNevents
  | incBh
  | decAndTest
  | incCatchup

namespace State

def initial : State := ⟨0, 0, 0, 0, false, .idle, .idle⟩

/-- The tasklet core clears the pending bit and calls `t_fun`. After
`tasklet_schedule` the handler only waits and returns. -/
def step (s : State) : Event → Except Unit State
  | .incTh =>
      match s.irq with
      | .idle => .ok { s with counterTh := atomicInc s.counterTh, irq := .counted }
      | _ => .error ()
  | .incNevents =>
      match s.irq with
      | .counted => .ok { s with nevents := atomicInc s.nevents, irq := .queued }
      | _ => .error ()
  | .schedule =>
      match s.irq with
      | .queued => .ok { s with pending := true, irq := .idle }
      | _ => .error ()
  | .run =>
      match s.tasklet, s.pending with
      | .idle, true => .ok { s with pending := false, tasklet := .checking }
      | _, _ => .error ()
  | .checkNevents =>
      match s.tasklet with
      | .checking => .ok { s with tasklet := if s.nevents ≤ 0 then .idle else .counting }
      | _ => .error ()
  | .incBh =>
      match s.tasklet with
      | .counting => .ok { s with counterBh := atomicInc s.counterBh, tasklet := .taking }
      | _ => .error ()
  | .decAndTest =>
      match s.tasklet with
      | .taking => .ok { s with
          nevents := atomicDec s.nevents
          tasklet := if atomicDec s.nevents = 0 then .idle else .missing }
      | _ => .error ()
  | .incCatchup =>
      match s.tasklet with
      | .missing => .ok { s with catchup := atomicInc s.catchup, tasklet := .counting }
      | _ => .error ()

/-- No event is owed, the counters agree as `int`s outside the paired updates, and
once handler and tasklet are done nothing is left to process. -/
def Lawful (s : State) : Prop :=
  0 ≤ s.nevents ∧
    (s.irq ≠ .counted → s.tasklet ≠ .taking →
      toInt32 (s.counterBh + s.nevents) = s.counterTh) ∧
    (s.tasklet = .idle → s.pending = false → s.irq = .idle →
      s.nevents = 0 ∧ s.counterBh = s.counterTh)

/-- The handler queues its event while fewer than `INT_MAX` of them are queued. -/
def HasRoom (s : State) (e : Event) : Prop :=
  e = .incNevents → s.irq = .counted → s.nevents < INT_MAX

end State

/-- What the handler has counted and not yet queued. -/
@[simp] def IrqPc.unqueued : IrqPc → ℤ
  | .counted => 1
  | _ => 0

@[simp] def TaskletPc.untaken : TaskletPc → ℤ
  | .taking => 1
  | _ => 0

/-- The tasklet has found an event and not yet taken it off. -/
def TaskletPc.Drains : TaskletPc → Prop
  | .counting => True
  | .taking => True
  | .missing => True
  | _ => False

namespace State

variable {s s' : State} {e : Event}

/-- The steps, by what they do. -/
inductive Does (s : State) : Event → State → Prop
  | incTh (h : s.irq = .idle) :
      Does s .incTh { s with counterTh := atomicInc s.counterTh, irq := .counted }
  | incNevents (h : s.irq = .counted) :
      Does s .incNevents { s with nevents := atomicInc s.nevents, irq := .queued }
  | schedule (h : s.irq = .queued) : Does s .schedule { s with pending := true, irq := .idle }
  | run (h : s.tasklet = .idle) :
      Does s .run { s with pending := false, tasklet := .checking }
  | spurious (h : s.tasklet = .checking) (hnone : s.nevents ≤ 0) :
      Does s .checkNevents { s with tasklet := .idle }
  | drain (h : s.tasklet = .checking) (hsome : 0 < s.nevents) :
      Does s .checkNevents { s with tasklet := .counting }
  | incBh (h : s.tasklet = .counting) :
      Does s .incBh { s with counterBh := atomicInc s.counterBh, tasklet := .taking }
  | last (h : s.tasklet = .taking) (hlast : atomicDec s.nevents = 0) :
      Does s .decAndTest { s with nevents := atomicDec s.nevents, tasklet := .idle }
  | more (h : s.tasklet = .taking) (hmore : atomicDec s.nevents ≠ 0) :
      Does s .decAndTest { s with nevents := atomicDec s.nevents, tasklet := .missing }
  | incCatchup (h : s.tasklet = .missing) :
      Does s .incCatchup { s with catchup := atomicInc s.catchup, tasklet := .counting }

theorem step_does (h : step s e = .ok s') : Does s e s' := by
  cases e with
  | incTh =>
      simp only [step] at h
      split at h
      · next hirq =>
          cases h
          exact .incTh hirq
      · cases h
  | incNevents =>
      simp only [step] at h
      split at h
      · next hirq =>
          cases h
          exact .incNevents hirq
      · cases h
  | schedule =>
      simp only [step] at h
      split at h
      · next hirq =>
          cases h
          exact .schedule hirq
      · cases h
  | run =>
      simp only [step] at h
      split at h
      · next htasklet _ =>
          cases h
          exact .run htasklet
      · cases h
  | checkNevents =>
      simp only [step] at h
      split at h
      · next htasklet =>
          cases h
          split
          · next hnone => exact .spurious htasklet hnone
          · next hsome => exact .drain htasklet (not_le.mp hsome)
      · cases h
  | incBh =>
      simp only [step] at h
      split at h
      · next htasklet =>
          cases h
          exact .incBh htasklet
      · cases h
  | decAndTest =>
      simp only [step] at h
      split at h
      · next htasklet =>
          cases h
          split
          · next hlast => exact .last htasklet hlast
          · next hmore => exact .more htasklet hmore
      · cases h
  | incCatchup =>
      simp only [step] at h
      split at h
      · next htasklet =>
          cases h
          exact .incCatchup htasklet
      · cases h

/-- The counters agree modulo `2 ^ 32`, up to the updates that are half done. -/
def Tallies (s : State) : Prop :=
  (s.counterBh - s.tasklet.untaken + s.nevents - (s.counterTh - s.irq.unqueued)) % 4294967296 = 0

def InRange (s : State) : Prop :=
  toInt32 s.counterTh = s.counterTh ∧ toInt32 s.counterBh = s.counterBh

structure Inv (s : State) : Prop where
  tallies : s.Tallies
  inRange : s.InRange
  nonneg : 0 ≤ s.nevents
  bounded : s.nevents ≤ INT_MAX
  busy : s.tasklet.Drains → 0 < s.nevents
  quiet : s.tasklet = .idle → s.pending = false → s.nevents = 0 ∨ s.irq = .queued

theorem inv_initial : Inv initial where
  tallies := rfl
  inRange := ⟨rfl, rfl⟩
  nonneg := le_refl _
  bounded := by decide
  busy h := h.elim
  quiet _ _ := .inl rfl

theorem Inv.agree (h : Inv s) (hirq : s.irq ≠ .counted) (htasklet : s.tasklet ≠ .taking) :
    toInt32 (s.counterBh + s.nevents) = s.counterTh := by
  have hunqueued : s.irq.unqueued = 0 := by
    cases hpc : s.irq with
    | counted => exact absurd hpc hirq
    | idle => rfl
    | queued => rfl
  have huntaken : s.tasklet.untaken = 0 := by
    cases hpc : s.tasklet with
    | taking => exact absurd hpc htasklet
    | idle => rfl
    | checking => rfl
    | counting => rfl
    | missing => rfl
  have htally := h.tallies
  simp only [Tallies, hunqueued, huntaken] at htally
  rw [← h.inRange.1, toInt32_eq_toInt32_iff]
  omega

theorem Inv.lawful (h : Inv s) : Lawful s := by
  refine ⟨h.nonneg, fun hirq htasklet => h.agree hirq htasklet, fun hidle hdone hirq => ?_⟩
  have hnone : s.nevents = 0 := by
    have hquiet := h.quiet hidle hdone
    simpa [hirq] using hquiet
  have hagree := h.agree (by simp [hirq]) (by simp [hidle])
  rw [hnone, add_zero, h.inRange.2] at hagree
  exact ⟨hnone, hagree⟩

theorem step_tallies (hi : Tallies s) (h : step s e = .ok s') : Tallies s' := by
  unfold Tallies at hi ⊢
  cases step_does h with
  | incTh hirq =>
      have hinc := atomicInc_emod s.counterTh
      simp only [hirq, IrqPc.unqueued] at hi ⊢
      omega
  | incNevents hirq =>
      have hinc := atomicInc_emod s.nevents
      simp only [hirq, IrqPc.unqueued] at hi ⊢
      omega
  | schedule hirq =>
      rw [hirq] at hi
      exact hi
  | run htasklet =>
      rw [htasklet] at hi
      exact hi
  | spurious htasklet _ =>
      rw [htasklet] at hi
      exact hi
  | drain htasklet _ =>
      rw [htasklet] at hi
      exact hi
  | incBh htasklet =>
      have hinc := atomicInc_emod s.counterBh
      simp only [htasklet, TaskletPc.untaken] at hi ⊢
      omega
  | last htasklet _ =>
      have hdec := atomicDec_emod s.nevents
      simp only [htasklet, TaskletPc.untaken] at hi ⊢
      omega
  | more htasklet _ =>
      have hdec := atomicDec_emod s.nevents
      simp only [htasklet, TaskletPc.untaken] at hi ⊢
      omega
  | incCatchup htasklet =>
      rw [htasklet] at hi
      exact hi

theorem step_inRange (hi : InRange s) (h : step s e = .ok s') : InRange s' := by
  cases step_does h with
  | incTh _ => exact ⟨toInt32_idem _, hi.2⟩
  | incBh _ => exact ⟨hi.1, toInt32_idem _⟩
  | _ => exact hi

/-- The number of queued events stays a natural number below `2 ^ 31`. -/
theorem step_range (hi : Inv s) (hC : HasRoom s e) (h : step s e = .ok s') :
    0 ≤ s'.nevents ∧ s'.nevents ≤ INT_MAX := by
  cases step_does h with
  | incNevents hirq =>
      have hroom := hC rfl hirq
      have hlow := hi.nonneg
      rw [atomicInc_of_lt hlow hroom]
      constructor
      · simp only
        omega
      · simp only
        omega
  | last htasklet hlast =>
      rw [hlast]
      exact ⟨le_refl _, hi.nonneg.trans hi.bounded⟩
  | more htasklet _ =>
      have hpos := hi.busy (by rw [htasklet]; trivial)
      have hhigh := hi.bounded
      rw [atomicDec_of_mem hi.nonneg hhigh]
      constructor
      · simp only
        omega
      · simp only
        omega
  | _ => exact ⟨hi.nonneg, hi.bounded⟩

theorem step_busy (hi : Inv s) (hC : HasRoom s e) (h : step s e = .ok s') :
    s'.tasklet.Drains → 0 < s'.nevents := by
  have hrange := step_range hi hC h
  cases step_does h with
  | incNevents hirq =>
      intro hdrains
      have hpos := hi.busy hdrains
      rw [atomicInc_of_lt hi.nonneg (hC rfl hirq)]
      simp only
      omega
  | run _ => exact fun hdrains => hdrains.elim
  | spurious _ _ => exact fun hdrains => hdrains.elim
  | drain _ hsome => exact fun _ => hsome
  | incBh htasklet => exact fun _ => hi.busy (by rw [htasklet]; trivial)
  | last _ _ => exact fun hdrains => hdrains.elim
  | more _ hmore => exact fun _ => lt_of_le_of_ne hrange.1 hmore.symm
  | incCatchup htasklet => exact fun _ => hi.busy (by rw [htasklet]; trivial)
  | incTh _ => exact hi.busy
  | schedule _ => exact hi.busy

/-- What is queued while no run of the tasklet is pending is about to schedule one. -/
theorem step_quiet (hi : Inv s) (h : step s e = .ok s') :
    s'.tasklet = .idle → s'.pending = false → s'.nevents = 0 ∨ s'.irq = .queued := by
  cases step_does h with
  | incTh hirq =>
      intro hidle hdone
      have hquiet := hi.quiet hidle hdone
      simp only [hirq, reduceCtorEq, or_false] at hquiet
      exact .inl hquiet
  | incNevents _ =>
      intro _ _
      exact .inr rfl
  | schedule _ =>
      intro _ hdone
      cases hdone
  | spurious _ hnone =>
      intro _ _
      exact .inl (le_antisymm hnone hi.nonneg)
  | last _ hlast =>
      intro _ _
      exact .inl hlast
  | _ =>
      intro hidle
      cases hidle

theorem step_inv (hi : Inv s) (hC : HasRoom s e) (h : step s e = .ok s') : Inv s' where
  tallies := step_tallies hi.tallies h
  inRange := step_inRange hi.inRange h
  nonneg := (step_range hi hC h).1
  bounded := (step_range hi hC h).2
  busy := step_busy hi hC h
  quiet := step_quiet hi h

theorem full_queue_wraps (hi : Inv s) (hC : ¬ HasRoom s e) :
    ∃ s', step s e = .ok s' ∧ ¬ Lawful s' := by
  simp only [HasRoom, not_forall, not_lt] at hC
  obtain ⟨rfl, hirq, hfull⟩ := hC
  have hmax : s.nevents = INT_MAX := le_antisymm hi.bounded hfull
  refine ⟨{ s with nevents := -2147483648, irq := .queued }, ?_, ?_⟩
  · simp [step, hirq, hmax, atomicInc, toInt32, INT_MAX]
  · rintro ⟨howed, -⟩
    simp at howed

/-- In every interleaving the counters are lawful in all states exactly when no handler
queues an event on top of `INT_MAX` others. -/
theorem lawful_iff (es : List Event) :
    Runs.Always step Lawful initial es ↔ Runs.Along step HasRoom initial es := by
  apply Runs.always_iff_along (I := Inv)
  · intro s hi
    exact hi.lawful
  · intro s e s' hi hC h
    exact step_inv hi hC h
  · intro s e hi hC
    exact full_queue_wraps hi hC
  · exact inv_initial

/-- Interrupts while the tasklet does not get to run. -/
def pileUp : ℕ → List Event
  | 0 => []
  | n + 1 => .incTh :: .incNevents :: .schedule :: pileUp n

theorem exec_pileUp (n : ℕ) (hirq : s.irq = .idle) (hrange : toInt32 s.nevents = s.nevents) :
    ∃ s', Runs.exec step s (pileUp n) = .ok s' ∧ s'.nevents = toInt32 (s.nevents + n) := by
  induction n generalizing s with
  | zero => exact ⟨s, rfl, by simp [hrange]⟩
  | succ n ih =>
      obtain ⟨s', hexec, hevents⟩ := ih (s := { s with
        counterTh := atomicInc s.counterTh
        nevents := atomicInc s.nevents
        pending := true
        irq := .idle }) rfl (toInt32_idem _)
      refine ⟨s', ?_, ?_⟩
      · simp only [pileUp, Runs.exec_cons, step, hirq, Outcome.ok_bind]
        exact hexec
      · rw [hevents, atomicInc, toInt32_toInt32_add, add_assoc, add_comm (1 : ℤ), Nat.cast_succ]

/-- With `2 ^ 31` interrupts before the tasklet runs, `nevents` is negative. -/
theorem pileUp_wraps :
    ∃ s, Runs.exec step initial (pileUp 2147483648) = .ok s ∧ s.nevents = -2147483648 ∧
      ¬ Lawful s := by
  obtain ⟨s, hexec, hevents⟩ := exec_pileUp (s := initial) 2147483648 rfl rfl
  have hwrapped : s.nevents = -2147483648 := hevents
  refine ⟨s, hexec, hwrapped, ?_⟩
  rintro ⟨hnonneg, -⟩
  omega

end State

end LddSamples.Interrupts.OneTaskletImproved

import LddSamples.Dma.Generic
import LddSamples.Kernel.Process
import LddSamples.Library.Runs

/-!
# lab5_killable: a sleep that the wakeup does not reach

A reader waits for `data_ready` in `wait_event_killable` and clears it; a writer writes,
sets `data_ready` and calls `wake_up_interruptible`. The ram disk is that of
lab_miscdev.h, which the labs of dma and ioctl have in common.
-/

namespace LddSamples.Ioctl.Killable

open Kernel CArith Outcome Dma

/-- Where a process stands in `mycdrv_read` or `mycdrv_write`: a reader is at the test of
its wait, asleep in a task state, past the wait, or past the reset of `data_ready`; a
writer has written, and has set `data_ready`. -/
inductive Pc
  | out
  | waiting (lbuf : ℕ)
  | asleep (lbuf state : ℕ)
  | passed (lbuf : ℕ)
  | reading (lbuf : ℕ)
  | written (nbytes : ℤ)
  | announced (nbytes : ℤ)

def Pc.wake (mode : ℕ) : Pc → Pc
  | .asleep lbuf state => if Wakes mode state then .waiting lbuf else .asleep lbuf state
  | pc => pc

def Pc.Writing : Pc → Prop
  | .written _ => True
  | .announced _ => True
  | _ => False

def Pc.Asleep : Pc → Prop
  | .asleep _ _ => True
  | _ => False

@[simp] theorem Pc.wake_writing (mode : ℕ) (pc : Pc) : (pc.wake mode).Writing ↔ pc.Writing := by
  cases pc with
  | asleep lbuf state =>
      simp only [wake]
      split <;> rfl
  | _ => rfl

theorem Pc.asleep_of_wake {mode : ℕ} {pc : Pc} (h : (pc.wake mode).Asleep) : pc.Asleep := by
  cases pc with
  | asleep lbuf state => trivial
  | _ => exact h

theorem Pc.eq_of_wake {mode lbuf state : ℕ} {pc : Pc} (h : pc.wake mode = .asleep lbuf state) :
    pc = .asleep lbuf state := by
  cases pc with
  | asleep lbuf' state' =>
      simp only [wake] at h
      split at h
      · cases h
      · exact h
  | _ => exact h

structure World (ι : Type) where
  dataReady : ℤ
  ramdisk : ℕ → UInt8
  fPos : ι → ℤ
  pc : ι → Pc

inductive Event (ι : Type)
  | read (p : ι) (lbuf : ℕ)
  | test (p : ι)
  | clear (p : ι)
  | copyOut (p : ι) (k : ℕ)
  | write (p : ι) (buf : List UInt8) (k : ℕ)
  | announce (p : ι)
  | wakeUp (p : ι)

namespace World

variable {ι : Type}

def initial (ramdisk : ℕ → UInt8) : World ι := ⟨0, ramdisk, fun _ => 0, fun _ => .out⟩

variable [DecidableEq ι]

def goto (w : World ι) (p : ι) (pc : Pc) : World ι := { w with pc := Function.update w.pc p pc }

/-- `state` is the task state in which readers sleep. A wait's test and its enqueueing
are one step. -/
def stepIn (state : ℕ) (w : World ι) : Event ι → Except Stop (World ι)
  | .read p lbuf =>
      match w.pc p with
      | .out => .ok (w.goto p (.waiting lbuf))
      | _ => .error .disabled
  | .test p =>
      match w.pc p with
      | .waiting lbuf =>
          .ok (w.goto p (if w.dataReady ≠ 0 then .passed lbuf else .asleep lbuf state))
      | _ => .error .disabled
  | .clear p =>
      match w.pc p with
      | .passed lbuf => .ok { w.goto p (.reading lbuf) with dataReady := 0 }
      | _ => .error .disabled
  | .copyOut p k =>
      match w.pc p with
      | .reading lbuf => do
          let r ← crash (mycdrvGenericRead w.ramdisk lbuf (w.fPos p) k)
          .ok { w.goto p .out with fPos := Function.update w.fPos p r.pos }
      | _ => .error .disabled
  | .write p buf k =>
      match w.pc p with
      | .out => do
          let r ← crash (mycdrvGenericWrite w.ramdisk buf (w.fPos p) k)
          .ok { w.goto p (.written r.ret) with
            ramdisk := r.ramdisk
            fPos := Function.update w.fPos p r.pos }
      | _ => .error .disabled
  | .announce p =>
      match w.pc p with
      | .written nbytes => .ok { w.goto p (.announced nbytes) with dataReady := 1 }
      | _ => .error .disabled
  | .wakeUp p =>
      match w.pc p with
      | .announced _ => .ok { w with
          pc := Function.update (fun r => (w.pc r).wake TASK_INTERRUPTIBLE) p .out }
      | _ => .error .disabled

/-- The driver: `wait_event_killable`. -/
def step (w : World ι) (e : Event ι) : Except Stop (World ι) := stepIn TASK_KILLABLE w e

/-- With data ready and all writers gone, no reader is asleep. -/
def NoneForgotten (w : World ι) : Prop :=
  ¬ (w.dataReady = 1 ∧ (∀ p, ¬ (w.pc p).Writing) ∧ ∃ p, (w.pc p).Asleep)

/-- When the last writer in flight calls `wake_up_interruptible`, its data have been taken
already, or nobody sleeps. -/
def WakesNobody (w : World ι) (e : Event ι) : Prop :=
  ∀ p nbytes, e = .wakeUp p → w.pc p = .announced nbytes →
    (∀ r, r ≠ p → ¬ (w.pc r).Writing) → w.dataReady = 1 → ∀ r, ¬ (w.pc r).Asleep

variable {state : ℕ} {w w' : World ι} {e : Event ι}

/-- What a step can do. But for the wakeup it moves one process: to sleep when
`data_ready` is 0, or to where it does not sleep. -/
theorem stepIn_cases (h : stepIn state w e = .ok w') :
    (∃ p nbytes, e = .wakeUp p ∧ w.pc p = .announced nbytes ∧ w' = { w with
      pc := Function.update (fun r => (w.pc r).wake TASK_INTERRUPTIBLE) p .out }) ∨
    ∃ p pc, w'.pc = Function.update w.pc p pc ∧
      ((∃ lbuf, pc = .asleep lbuf state ∧ w'.dataReady = 0) ∨
        ¬ pc.Asleep ∧ (pc.Writing ∨ w'.dataReady = 0 ∨
          ¬ (w.pc p).Writing ∧ w'.dataReady = w.dataReady)) := by
  cases e with
  | read p lbuf =>
      simp only [stepIn] at h
      split at h
      · next hpc =>
          cases h
          exact .inr ⟨p, _, rfl, .inr ⟨id, .inr (.inr ⟨by rw [hpc]; exact id, rfl⟩)⟩⟩
      · cases h
  | test p =>
      simp only [stepIn] at h
      split at h
      · next lbuf hpc =>
          cases h
          refine .inr ⟨p, _, rfl, ?_⟩
          split
          · exact .inr ⟨id, .inr (.inr ⟨by rw [hpc]; exact id, rfl⟩)⟩
          · next hready => exact .inl ⟨lbuf, rfl, not_not.mp hready⟩
      · cases h
  | clear p =>
      simp only [stepIn] at h
      split at h
      · cases h
        exact .inr ⟨p, _, rfl, .inr ⟨id, .inr (.inl rfl)⟩⟩
      · cases h
  | copyOut p k =>
      simp only [stepIn] at h
      split at h
      · next lbuf hpc =>
          simp only [bind_eq_ok, Except.ok.injEq] at h
          obtain ⟨r, -, rfl⟩ := h
          exact .inr ⟨p, _, rfl, .inr ⟨id, .inr (.inr ⟨by rw [hpc]; exact id, rfl⟩)⟩⟩
      · cases h
  | write p buf k =>
      simp only [stepIn] at h
      split at h
      · simp only [bind_eq_ok, Except.ok.injEq] at h
        obtain ⟨r, -, rfl⟩ := h
        exact .inr ⟨p, .written r.ret, rfl, .inr ⟨id, .inl trivial⟩⟩
      · cases h
  | announce p =>
      simp only [stepIn] at h
      split at h
      · next nbytes _ =>
          cases h
          exact .inr ⟨p, .announced nbytes, rfl, .inr ⟨id, .inl trivial⟩⟩
      · cases h
  | wakeUp p =>
      simp only [stepIn] at h
      split at h
      · next nbytes hpc =>
          cases h
          exact .inl ⟨p, nbytes, rfl, hpc, rfl⟩
      · cases h

omit [DecidableEq ι] in
theorem noneForgotten_of_idle (h : w.dataReady = 0) : NoneForgotten w := by
  rintro ⟨hone, -, -⟩
  omega

omit [DecidableEq ι] in
theorem initial_noneForgotten (ramdisk : ℕ → UInt8) :
    NoneForgotten (initial ramdisk : World ι) := noneForgotten_of_idle rfl

theorem noneForgotten_of_writing {p : ι} {pc : Pc} (hpc : pc.Writing)
    (h : w'.pc = Function.update w.pc p pc) : NoneForgotten w' := by
  rintro ⟨-, hnone, -⟩
  apply hnone p
  rw [h, Function.update_self]
  exact hpc

/-- A process that is not a writer, and does not fall asleep, forgets nobody. -/
theorem NoneForgotten.move (h : NoneForgotten w) {p : ι} {pc : Pc} (hwriting : ¬ (w.pc p).Writing)
    (hasleep : ¬ pc.Asleep) (hready : w'.dataReady = w.dataReady)
    (hpc : w'.pc = Function.update w.pc p pc) : NoneForgotten w' := by
  rintro ⟨hone, hnone, r, hr⟩
  have hother : ∀ q, q ≠ p → w'.pc q = w.pc q := fun q hq => by
    rw [hpc, Function.update_of_ne hq]
  apply h
  refine ⟨hready ▸ hone, fun q => ?_, r, ?_⟩
  · by_cases hq : q = p
    · rw [hq]
      exact hwriting
    · rw [← hother q hq]
      exact hnone q
  · have hne : r ≠ p := by
      rintro rfl
      rw [hpc, Function.update_self] at hr
      exact hasleep hr
    rwa [← hother r hne]

/-- Only the step of a last writer can leave a sleeping reader behind. -/
theorem step_noneForgotten (hw : NoneForgotten w)
    (hwake : ∀ p nbytes, e = .wakeUp p → w.pc p = .announced nbytes → NoneForgotten { w with
      pc := Function.update (fun r => (w.pc r).wake TASK_INTERRUPTIBLE) p .out })
    (h : stepIn state w e = .ok w') : NoneForgotten w' := by
  obtain ⟨p, nbytes, he, hpc, rfl⟩ | ⟨p, pc, hpc, hmoved⟩ := stepIn_cases h
  · exact hwake p nbytes he hpc
  · obtain ⟨lbuf, -, hready⟩ | ⟨hasleep, hwriting | hready | ⟨hreader, hready⟩⟩ := hmoved
    · exact noneForgotten_of_idle hready
    · exact noneForgotten_of_writing hwriting hpc
    · exact noneForgotten_of_idle hready
    · exact hw.move hreader hasleep hready hpc

/-- All sleepers sleep in one task state. -/
def SleepsIn (state : ℕ) (w : World ι) : Prop :=
  ∀ p lbuf state', w.pc p = .asleep lbuf state' → state' = state

theorem SleepsIn.move (h : SleepsIn state w) {p : ι} {pc : Pc}
    (hpc : ∀ lbuf state', pc = .asleep lbuf state' → state' = state)
    (hmove : w'.pc = Function.update w.pc p pc) : SleepsIn state w' := by
  intro r lbuf state' hr
  rw [hmove] at hr
  by_cases hrp : r = p
  · subst hrp
    rw [Function.update_self] at hr
    exact hpc lbuf state' hr
  · rw [Function.update_of_ne hrp] at hr
    exact h r lbuf state' hr

theorem step_sleepsIn (hw : SleepsIn state w) (h : stepIn state w e = .ok w') :
    SleepsIn state w' := by
  obtain ⟨p, nbytes, -, -, rfl⟩ | ⟨p, pc, hpc, ⟨lbuf, rfl, -⟩ | ⟨hasleep, -⟩⟩ := stepIn_cases h
  · intro r lbuf state' hr
    by_cases hrp : r = p
    · subst hrp
      simp at hr
    · simp only [Function.update_of_ne hrp] at hr
      exact hw r lbuf state' (Pc.eq_of_wake hr)
  · apply hw.move ?_ hpc
    rintro _ _ ⟨⟩
    rfl
  · apply hw.move ?_ hpc
    rintro lbuf state' rfl
    exact absurd trivial hasleep

/-- A wakeup of the last writer leaves behind whom it does not reach. -/
theorem wakeUp_noneForgotten {p : ι} (hdone : (∀ r, r ≠ p → ¬ (w.pc r).Writing) →
    w.dataReady = 1 → ∀ r, r ≠ p → ¬ ((w.pc r).wake TASK_INTERRUPTIBLE).Asleep) :
    NoneForgotten { w with
      pc := Function.update (fun r => (w.pc r).wake TASK_INTERRUPTIBLE) p .out } := by
  rintro ⟨hready, hnone, r, hr⟩
  have hne : r ≠ p := by
    rintro rfl
    simp only [Function.update_self] at hr
    exact hr
  simp only [Function.update_of_ne hne] at hr
  refine hdone (fun q hq hwriting => hnone q ?_) hready r hne hr
  simp only [Function.update_of_ne hq]
  exact (Pc.wake_writing _ _).mpr hwriting

/-- In every interleaving, no reader is left asleep with data ready exactly when no last
writer calls a wakeup that somebody sleeps through. -/
theorem noneForgotten_iff (ramdisk : ℕ → UInt8) (es : List (Event ι)) :
    Runs.Always step NoneForgotten (initial ramdisk) es ↔
      Runs.Along step WakesNobody (initial ramdisk) es := by
  apply Runs.always_iff_along (I := fun w => NoneForgotten w ∧ SleepsIn TASK_KILLABLE w)
  · rintro w ⟨hw, -⟩
    exact hw
  · rintro w e w' ⟨hw, hsleeps⟩ hC h
    refine ⟨step_noneForgotten hw ?_ h, step_sleepsIn hsleeps h⟩
    intro p nbytes he hpc
    apply wakeUp_noneForgotten
    intro hlast hready r _ hr
    exact hC p nbytes he hpc hlast hready r (Pc.asleep_of_wake hr)
  · rintro w e ⟨hw, hsleeps⟩ hC
    simp only [WakesNobody] at hC
    push Not at hC
    obtain ⟨p, nbytes, rfl, hpc, hlast, hready, r, hr⟩ := hC
    have hstep : step w (.wakeUp p) = .ok { w with
        pc := Function.update (fun r => (w.pc r).wake TASK_INTERRUPTIBLE) p .out } := by
      simp only [step, stepIn, hpc]
    refine ⟨_, hstep, fun hnone => hnone ⟨hready, ?_, r, ?_⟩⟩
    · intro q
      by_cases hq : q = p
      · subst hq
        simp [Pc.Writing]
      · simp only [Function.update_of_ne hq]
        exact fun hwriting => hlast q hq ((Pc.wake_writing _ _).mp hwriting)
    · -- the sleeper is in a state that the wakeup does not reach
      have hne : r ≠ p := by
        rintro rfl
        rw [hpc] at hr
        exact hr
      simp only [Function.update_of_ne hne]
      cases hrpc : w.pc r with
      | asleep lbuf state =>
          obtain rfl := hsleeps r lbuf state hrpc
          simp only [Pc.wake, if_neg not_wakes_killable]
          trivial
      | _ =>
          rw [hrpc] at hr
          exact absurd hr id
  · exact ⟨initial_noneForgotten ramdisk, nofun⟩

/-- With a sleep that the wakeup reaches, as in `wait_event_interruptible`, no reader is
ever left behind. -/
theorem noneForgotten_of_wakes (hwakes : Wakes TASK_INTERRUPTIBLE state) (ramdisk : ℕ → UInt8)
    (es : List (Event ι)) : Runs.Always (stepIn state) NoneForgotten (initial ramdisk) es := by
  apply Runs.always_of_inv (I := fun w => NoneForgotten w ∧ SleepsIn state w)
  · rintro w ⟨hw, -⟩
    exact hw
  · rintro w e w' ⟨hw, hsleeps⟩ h
    refine ⟨step_noneForgotten hw ?_ h, step_sleepsIn hsleeps h⟩
    intro p nbytes he hpc
    apply wakeUp_noneForgotten
    intro _ _ r _ hr
    cases hrpc : w.pc r with
    | asleep lbuf state' =>
        obtain rfl := hsleeps r lbuf state' hrpc
        simp only [hrpc, Pc.wake, if_pos hwakes] at hr
        exact hr
    | _ =>
        rw [hrpc] at hr
        exact hr
  · exact ⟨initial_noneForgotten ramdisk, nofun⟩

/-- The reader falls asleep before the write, and stays asleep after it. -/
theorem reader_sleeps_on :
    ∃ w : World ℕ, Runs.exec step (initial fun _ => 0)
        [.read 1 4, .test 1, .write 2 [7] 1, .announce 2, .wakeUp 2] = .ok w ∧
      w.dataReady = 1 ∧ w.pc 1 = .asleep 4 TASK_KILLABLE ∧ ¬ NoneForgotten w ∧
      ¬ Runs.Always step NoneForgotten (initial fun _ => 0)
        [.read 1 4, .test 1, .write 2 [7] 1, .announce 2, .wakeUp (2 : ℕ)] := by
  obtain ⟨w, hrun, hready, hpc, hother⟩ : ∃ w : World ℕ, Runs.exec step (initial fun _ => 0)
      [.read 1 4, .test 1, .write 2 [7] 1, .announce 2, .wakeUp 2] = .ok w ∧
      w.dataReady = 1 ∧ w.pc 1 = .asleep 4 TASK_KILLABLE ∧ ∀ p, p ≠ 1 → w.pc p = .out := by
    refine ⟨_, rfl, rfl, rfl, fun p hp => ?_⟩
    by_cases h2 : p = 2
    · subst h2
      rfl
    · simp [goto, initial, hp, h2, Pc.wake]
  have hforgotten : ¬ NoneForgotten w := by
    intro hnone
    apply hnone
    refine ⟨hready, fun p => ?_, 1, by rw [hpc]; trivial⟩
    by_cases hp : p = 1
    · rw [hp, hpc]
      exact id
    · rw [hother p hp]
      exact id
  exact ⟨w, hrun, hready, hpc, hforgotten, Runs.not_always_of_exec hrun hforgotten⟩

end World

end LddSamples.Ioctl.Killable

import LddSamples.Library.Deferral

/-!
# Unloading the drivers while they may still be called

A module is gone when its exit routine has returned. Its tasklets, works and timers may be
queued or running then, and where its `file_operations` name no owner its files may be open.
A file that names its owner, and an interrupt line until `free_irq`, keep the module.
-/

namespace LddSamples.Modules.Unloading

open Deferral

/-! ## Files and interrupt lines alone -/

/-- The labs of char, io/lab3_mmap and memory/memory_lab2_cache: `fops` has no `.owner`. -/
def chardrv : Owner Empty := ⟨.free, .users, false, false, []⟩

/-- The labs on `my_generic_init` of lab_miscdev.h, whose `mycdrv_fops` have one. -/
def mycdrv : Owner Empty := ⟨.pinning, .users, false, false, []⟩

/-- interrupts/lab1_interrupt and interrupts/lab2_interrupt. -/
def interrupt : Owner Empty := ⟨.none, .stoppable, false, false, [.stopSource]⟩

/-- interrupts/lab9_uio. -/
def uio : Owner Empty := ⟨.pinning, .stoppable, false, false, [.stopSource]⟩

/-! ## Tasklets and works -/

/-- One tasklet or work, which the handler queues: interrupts/lab3_tasklet,
interrupts/lab3_workqueue, and with `my_generic_exit` of lab_one_interrupt.h
interrupts/lab4_one_tasklet, interrupts/lab4_one_workqueue and
interrupts/lab5_one_tasklet_improved. -/
def oneItem : Owner Unit := ⟨.none, .stoppable, false, false, [.stopSource]⟩

/-- Each interrupt allocates a tasklet or work of its own: interrupts/lab4_one_tasklet_dynamic
and interrupts/lab5_one_workqueue_dynamic. -/
def oneDynamic : Owner ℕ := ⟨.none, .stoppable, false, true, [.stopSource]⟩

/-- interrupts/lab6_all_tasklet and interrupts/lab6_all_workqueue, with the lines and the file
of lab_all_interrupt.h. -/
def allItem : Owner Unit := ⟨.pinning, .stoppable, false, false, [.stopSource]⟩

/-- interrupts/lab7_all_tasklet_dynamic and interrupts/lab7_all_workqueue_dynamic. -/
def allDynamic : Owner ℕ := ⟨.pinning, .stoppable, false, true, [.stopSource]⟩

/-- interrupts/lab3_workqueue_shared; a write queues the work. -/
def workqueueShared : Owner Unit := ⟨.pinning, .users, false, false, []⟩

/-- interrupts/lab3_workqueue_private and interrupts/lab3_workqueue_newapi, which call
`destroy_workqueue`. -/
def workqueuePrivate : Owner Unit := ⟨.pinning, .users, false, false, [.drain [()]]⟩

/-- interrupts/lab11_mytasklet. -/
def mytasklet : Owner Unit := ⟨.none, .load, false, false, []⟩

/-- defer/defer_lab2_tasklet; a write queues the tasklet. -/
def deferTasklet : Owner Unit := ⟨.free, .users, false, false, []⟩

/-- defer/defer_lab3_workqueue. -/
def deferWorkqueue : Owner Unit := ⟨.free, .stoppable, false, false, [.stopSource]⟩

/-! ## Timers -/

/-- The two timers of a lab: `timer_a` and `timer_b`, or those with the `struct_id`s `'A'` and
`'B'`. -/
inductive TwoTimers
  | a
  | b
  deriving DecidableEq

/-- defer/defer_lab1_timer, which calls `del_timer`. -/
def deferTimer : Owner Unit := ⟨.free, .load, false, false, [.take ()]⟩

/-- timers/lab3_periodic_timer, with `del_timer_sync`, and timers/lab7_hrexamp, with
`hrtimer_cancel`. -/
def periodicTimer : Owner Unit := ⟨.none, .load, true, false, [.await ()]⟩

/-- timers/lab4_periodic_timers, with `del_timer_sync`, and timers/lab5_hrtimer, with
`hrtimer_cancel`. -/
def periodicTimers : Owner TwoTimers := ⟨.none, .load, true, false, [.await .a, .await .b]⟩

/-- timers/lab4_periodic_timers_alt, with `del_timer`. -/
def periodicTimersAlt : Owner TwoTimers := ⟨.none, .load, true, false, [.take .a, .take .b]⟩

/-! ## Which of them can be unloaded -/

inductive Lab
  | chardrv
  | mycdrv
  | interrupt
  | uio
  | oneItem
  | oneDynamic
  | allItem
  | allDynamic
  | workqueueShared
  | workqueuePrivate
  | mytasklet
  | deferTasklet
  | deferWorkqueue
  | deferTimer
  | periodicTimer
  | periodicTimers
  | periodicTimersAlt
  deriving DecidableEq

/-- The functions of a lab that are called later. -/
def Lab.Item : Lab → Type
  | .chardrv | .mycdrv | .interrupt | .uio => Empty
  | .oneDynamic | .allDynamic => ℕ
  | .periodicTimers | .periodicTimersAlt => TwoTimers
  | _ => Unit

instance (lab : Lab) : DecidableEq lab.Item := by
  cases lab <;> unfold Lab.Item <;> infer_instance

def Lab.owner : (lab : Lab) → Owner lab.Item
  | .chardrv => Unloading.chardrv
  | .mycdrv => Unloading.mycdrv
  | .interrupt => Unloading.interrupt
  | .uio => Unloading.uio
  | .oneItem => Unloading.oneItem
  | .oneDynamic => Unloading.oneDynamic
  | .allItem => Unloading.allItem
  | .allDynamic => Unloading.allDynamic
  | .workqueueShared => Unloading.workqueueShared
  | .workqueuePrivate => Unloading.workqueuePrivate
  | .mytasklet => Unloading.mytasklet
  | .deferTasklet => Unloading.deferTasklet
  | .deferWorkqueue => Unloading.deferWorkqueue
  | .deferTimer => Unloading.deferTimer
  | .periodicTimer => Unloading.periodicTimer
  | .periodicTimers => Unloading.periodicTimers
  | .periodicTimersAlt => Unloading.periodicTimersAlt

/-- Those that wait. -/
def waiting : List Lab :=
  [.mycdrv, .interrupt, .uio, .workqueuePrivate, .periodicTimer, .periodicTimers]

theorem settles_of_mem {lab : Lab} (h : lab ∈ waiting) : lab.owner.Settles := by
  cases lab with
  | mycdrv => exact ⟨nofun, nofun, nofun⟩
  | interrupt => exact ⟨nofun, by decide, nofun⟩
  | uio => exact ⟨nofun, by decide, nofun⟩
  | workqueuePrivate => exact ⟨nofun, nofun, fun i => .inl ⟨rfl, List.mem_singleton.mpr rfl⟩⟩
  | periodicTimer => exact ⟨nofun, nofun, fun i => .inl ⟨rfl, rfl⟩⟩
  | periodicTimers =>
      have hcovers : ∀ i : TwoTimers, Covers i false periodicTimers.exit := by
        intro i
        cases i <;> decide
      exact ⟨nofun, nofun, hcovers⟩
  | _ => exact absurd h (by decide)

theorem impatient_of_not_mem {lab : Lab} (h : lab ∉ waiting) : lab.owner.Impatient := by
  cases lab with
  | chardrv => exact ⟨nofun, .inl rfl⟩
  | oneItem => exact ⟨show ∀ x ∈ oneItem.exit, x.Hasty by decide, .inr ⟨⟨()⟩, nofun⟩⟩
  | oneDynamic =>
      exact ⟨show ∀ x ∈ oneDynamic.exit, x.Hasty by decide, .inr ⟨⟨(0 : ℕ)⟩, nofun⟩⟩
  | allItem => exact ⟨show ∀ x ∈ allItem.exit, x.Hasty by decide, .inr ⟨⟨()⟩, nofun⟩⟩
  | allDynamic =>
      exact ⟨show ∀ x ∈ allDynamic.exit, x.Hasty by decide, .inr ⟨⟨(0 : ℕ)⟩, nofun⟩⟩
  | workqueueShared => exact ⟨nofun, .inr ⟨⟨()⟩, nofun⟩⟩
  | mytasklet => exact ⟨nofun, .inr ⟨⟨()⟩, nofun⟩⟩
  | deferTasklet => exact ⟨nofun, .inl rfl⟩
  | deferWorkqueue => exact ⟨show ∀ x ∈ deferWorkqueue.exit, x.Hasty by decide, .inl rfl⟩
  | deferTimer => exact ⟨show ∀ x ∈ deferTimer.exit, x.Hasty by decide, .inl rfl⟩
  | periodicTimersAlt =>
      exact ⟨show ∀ x ∈ periodicTimersAlt.exit, x.Hasty by decide, .inr ⟨⟨TwoTimers.a⟩, nofun⟩⟩
  | _ => exact absurd (by decide) h

/-- These labs can be unloaded at any time that the kernel allows, and nothing of them runs
after it: in every run of loads, interrupts, opens, writes and expiries. No other one can. -/
theorem labs_unload_iff (lab : Lab) :
    (∀ es, Runs.Always lab.owner.step Safe lab.owner.initial es) ↔ lab ∈ waiting := by
  constructor
  · intro halways
    by_contra hnot
    obtain ⟨es, hes⟩ := Owner.exists_unsafe (impatient_of_not_mem hnot)
    exact hes (halways es)
  · exact fun hmem es => Owner.safe_of_settles (settles_of_mem hmem) es

end LddSamples.Modules.Unloading

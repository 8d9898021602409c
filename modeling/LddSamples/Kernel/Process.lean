import LddSamples.Kernel.Basic

/-!
# Processes in the kernel

Why a process cannot take a step, and the task states of a sleep: a wakeup names the
states that it reaches.
-/

namespace LddSamples.Kernel

/-- A step that cannot be taken, because its process is elsewhere or asleep, or that
crashes the kernel. -/
inductive Stop
  | disabled
  | fault (f : Fault)

def crash {α : Type} : Except Fault α → Except Stop α
  | .ok a => .ok a
  | .error f => .error (.fault f)

@[simp] theorem crash_eq_ok {α : Type} {x : Except Fault α} {a : α} :
    crash x = .ok a ↔ x = .ok a := by
  cases x <;> simp [crash]

@[simp] theorem crash_eq_fault {α : Type} {x : Except Fault α} {f : Fault} :
    crash x = .error (.fault f) ↔ x = .error f := by
  cases x <;> simp [crash]

def TASK_INTERRUPTIBLE : ℕ := 0x1
def TASK_UNINTERRUPTIBLE : ℕ := 0x2
def TASK_WAKEKILL : ℕ := 0x100
def TASK_KILLABLE : ℕ := TASK_WAKEKILL ||| TASK_UNINTERRUPTIBLE

/-- `try_to_wake_up` leaves a task alone whose state is not in the mode. -/
def Wakes (mode state : ℕ) : Prop := state &&& mode ≠ 0

instance (mode state : ℕ) : Decidable (Wakes mode state) :=
  inferInstanceAs (Decidable (_ ≠ _))

theorem not_wakes_killable : ¬ Wakes TASK_INTERRUPTIBLE TASK_KILLABLE := by decide

end LddSamples.Kernel

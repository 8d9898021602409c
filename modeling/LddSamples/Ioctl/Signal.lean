import LddSamples.Kernel.Basic
import LddSamples.Library.Runs

/-!
# lab3_ioctl_signal: a task that is looked up once and used later

`MYIOC_SETPID` looks a task up and keeps the pointer, `MYIOC_SENDSIG` uses it, and where
there is none takes its caller and keeps that. Tasks exit at any time and their numbers
are given to new tasks. Here every call runs from its start to its end; nothing in the
driver sees to that.
-/

namespace LddSamples.Ioctl.Signal

open Kernel CArith

/-! ## Processes -/

/-- The tasks that have not exited, by number and back. A task is never created twice. -/
structure ProcTable where
  pidTask : ℤ → Option ℕ
  taskPid : ℕ → Option ℤ
  born : ℕ
  inverse : ∀ pid tsk, pidTask pid = some tsk ↔ taskPid tsk = some pid
  old : ∀ tsk pid, taskPid tsk = some pid → tsk < born

namespace ProcTable

def empty : ProcTable where
  pidTask _ := none
  taskPid _ := none
  born := 0
  inverse _ _ := by simp
  old _ _ h := by cases h

/-- The next task takes a number that is free. -/
def fork (procs : ProcTable) (pid : ℤ) (hfree : procs.pidTask pid = none) : ProcTable where
  pidTask := Function.update procs.pidTask pid (some procs.born)
  taskPid := Function.update procs.taskPid procs.born (some pid)
  born := procs.born + 1
  inverse q tsk := by
    have hnew : procs.taskPid procs.born = none := by
      by_contra h
      obtain ⟨r, hr⟩ := Option.ne_none_iff_exists'.mp h
      exact absurd (procs.old _ r hr) (lt_irrefl _)
    by_cases hq : q = pid <;> by_cases ht : tsk = procs.born
    · simp [hq, ht]
    · rw [hq, Function.update_self, Function.update_of_ne ht, ← procs.inverse, hfree]
      simp [Ne.symm ht]
    · rw [ht, Function.update_self, Function.update_of_ne hq, procs.inverse, hnew]
      simp [Ne.symm hq]
    · rw [Function.update_of_ne hq, Function.update_of_ne ht, procs.inverse]
  old tsk q h := by
    by_cases ht : tsk = procs.born
    · omega
    · rw [Function.update_of_ne ht] at h
      exact (procs.old tsk q h).trans (Nat.lt_succ_self _)

def exit (procs : ProcTable) (pid : ℤ) (tsk : ℕ) (htask : procs.pidTask pid = some tsk) :
    ProcTable where
  pidTask := Function.update procs.pidTask pid none
  taskPid := Function.update procs.taskPid tsk none
  born := procs.born
  inverse q t := by
    have hpid := (procs.inverse pid tsk).mp htask
    by_cases hq : q = pid <;> by_cases ht : t = tsk
    · simp [hq, ht]
    · rw [hq, Function.update_self, Function.update_of_ne ht, ← procs.inverse, htask]
      simp [Ne.symm ht]
    · rw [ht, Function.update_self, Function.update_of_ne hq, procs.inverse, hpid]
      simp [Ne.symm hq]
    · rw [Function.update_of_ne hq, Function.update_of_ne ht, procs.inverse]
  old t q h := by
    by_cases ht : t = tsk
    · simp [ht] at h
    · rw [Function.update_of_ne ht] at h
      exact procs.old t q h

end ProcTable

/-! ## The driver -/

def MYIOC_TYPE : ℕ := 107

/-- `_IO`. -/
def io (type nr : ℕ) : ℕ := type * 256 + nr

def MYIOC_SETPID : ℕ := io MYIOC_TYPE 1
def MYIOC_SETSIG : ℕ := io MYIOC_TYPE 2
def MYIOC_SENDSIG : ℕ := io MYIOC_TYPE 3

def SIGKILL : ℤ := 9

structure Driver where
  sigPid : ℤ
  sigTsk : Option ℕ
  sigTosend : ℤ

def Driver.initial : Driver := ⟨0, none, SIGKILL⟩

/-- The value returned, the driver's variables afterwards, and what `send_sig` was
called with. The caller is `current`, whose number is `pid`. -/
def mycdrvUnlockedIoctl (procs : ProcTable) (current : ℕ) (pid : ℤ) (d : Driver) (cmd : ℕ)
    (arg : ℤ) : ℤ × Driver × Option (ℕ × ℤ) :=
  if cmd = MYIOC_SETPID then
    (0, { d with sigPid := toInt32 arg, sigTsk := procs.pidTask (toInt32 arg) }, none)
  else if cmd = MYIOC_SETSIG then (0, { d with sigTosend := toInt32 arg }, none)
  else if cmd = MYIOC_SENDSIG then
    match d.sigTsk with
    | some tsk => (0, d, some (tsk, d.sigTosend))
    | none => (0, { d with sigPid := pid, sigTsk := some current }, some (current, d.sigTosend))
  else (-EINVAL, d, none)

/-! ## Calls -/

/-- The number that was given to `MYIOC_SETPID` last and the signal that was given to
`MYIOC_SETSIG` last. -/
structure History where
  asked : Option ℤ
  signal : Option ℤ

def History.record (h : History) (cmd : ℕ) (arg : ℤ) : History :=
  if cmd = MYIOC_SETPID then { h with asked := some (toInt32 arg) }
  else if cmd = MYIOC_SETSIG then { h with signal := some (toInt32 arg) }
  else h

/-- A call of `send_sig`: the task and the number it had, if it had not exited, the
signal, and the caller with what had been set before. -/
structure Send where
  task : ℕ
  pid : Option ℤ
  signal : ℤ
  caller : ℕ
  asked : Option ℤ
  wanted : Option ℤ
  deriving DecidableEq

/-- The signal goes to a task that has not exited and has the number that was set, or,
where none ever was, is the caller. -/
def Send.Right (r : Send) : Prop :=
  (match r.asked with
    | some pid => r.pid = some pid
    | none => r.pid.isSome ∧ r.task = r.caller) ∧
  ∀ x, r.wanted = some x → r.signal = x

structure State where
  driver : Driver
  procs : ProcTable
  history : History
  sends : List Send

/-- An ioctl is made by the task that has the number `pid`. -/
inductive Event
  | fork (pid : ℤ)
  | exit (pid : ℤ)
  | ioctl (pid : ℤ) (cmd : ℕ) (arg : ℤ)

namespace State

def initial : State := ⟨.initial, .empty, ⟨none, none⟩, []⟩

def call (s : State) (current : ℕ) (pid : ℤ) (cmd : ℕ) (arg : ℤ) : State :=
  let r := mycdrvUnlockedIoctl s.procs current pid s.driver cmd arg
  { s with
    driver := r.2.1
    history := s.history.record cmd arg
    sends := s.sends ++ (r.2.2.map fun sent => ⟨sent.1, s.procs.taskPid sent.1, sent.2, current,
      s.history.asked, s.history.signal⟩).toList }

/-- The callers take turns: an ioctl is one step. -/
def step (s : State) : Event → Except Unit State
  | .fork pid =>
      if h : 0 < pid ∧ s.procs.pidTask pid = none then
        .ok { s with procs := s.procs.fork pid h.2 }
      else .error ()
  | .exit pid =>
      match h : s.procs.pidTask pid with
      | some tsk => .ok { s with procs := s.procs.exit pid tsk h }
      | none => .error ()
  | .ioctl pid cmd arg =>
      match s.procs.pidTask pid with
      | some current => .ok (s.call current pid cmd arg)
      | none => .error ()

end State

end LddSamples.Ioctl.Signal

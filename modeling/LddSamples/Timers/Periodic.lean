import LddSamples.Library.Runs

/-!
# Timers that re-arm themselves, and their teardown

lab4_periodic_timers_alt deletes its two timers with `del_timer` and frees their data;
lab4_periodic_timers does so with `del_timer_sync`. tiny_tty deletes the timer of a port
with `del_timer` when the port is shut down, and sets it up when it is activated. A
callback that has been started by another processor goes on whatever `del_timer` does.
-/

namespace LddSamples.Timers.Periodic

/-- Where the callback stands: before it looks at its data, before `mod_timer` or
`add_timer`, and before it returns. -/
inductive CallbackPc
  | idle
  | reading
  | rearming
  | returning
  deriving DecidableEq

structure Timer where
  pending : Bool
  callback : CallbackPc

inductive TimerEvent
  | expire
  | read
  | rearm
  | leave

namespace Timer

def off : Timer := ⟨false, .idle⟩

/-- A timer that has expired is not pending any more. Its callbacks run one after another. -/
def step (t : Timer) : TimerEvent → Except Unit Timer
  | .expire =>
      match t.pending, t.callback with
      | true, .idle => .ok ⟨false, .reading⟩
      | _, _ => .error ()
  | .read =>
      match t.callback with
      | .reading => .ok { t with callback := .rearming }
      | _ => .error ()
  | .rearm =>
      match t.callback with
      | .rearming => .ok ⟨true, .returning⟩
      | _ => .error ()
  | .leave =>
      match t.callback with
      | .returning => .ok { t with callback := .idle }
      | _ => .error ()

def addTimer (t : Timer) : Timer := { t with pending := true }

def delTimer (t : Timer) : Timer := { t with pending := false }

/-- `del_timer_sync` waits for the callback. -/
def delTimerSync (t : Timer) : Except Unit Timer :=
  if t.callback = .idle then .ok t.delTimer else .error ()

/-- What an exit routine calls: `del_timer_sync` or `del_timer`. -/
def delete (sync : Bool) (t : Timer) : Except Unit Timer :=
  if sync then t.delTimerSync else .ok t.delTimer

/-- A timer that is off does nothing of itself. -/
theorem step_off (e : TimerEvent) : off.step e = .error () := by
  cases e <;> rfl

theorem delTimer_eq_off {t : Timer} (h : t.callback = .idle) : t.delTimer = off := by
  rw [delTimer, h]
  rfl

/-- A timer that is deleted while its callback is idle is off. -/
theorem delete_eq_off {sync : Bool} {t t' : Timer} (hidle : sync = true ∨ t.callback = .idle)
    (h : t.delete sync = .ok t') : t' = off := by
  unfold delete at h
  split at h
  · unfold delTimerSync at h
    split at h
    · next hcallback =>
        cases h
        exact delTimer_eq_off hcallback
    · cases h
  · next hsync =>
      cases h
      exact delTimer_eq_off (hidle.resolve_left hsync)

end Timer

/-! ## lab4_periodic_timers_alt.c and lab4_periodic_timers.c -/

/-- Where `my_init` and `my_exit` stand, by the timer they come to next. -/
inductive Boot
  | adding (i : ℕ)
  | loaded
  | deleting (i : ℕ)
  | exited

structure State where
  boot : Boot
  timers : ℕ → Timer

inductive Event
  | init
  | exit
  | timer (i : ℕ) (e : TimerEvent)

namespace State

def initial : State := ⟨.adding 0, fun _ => .off⟩

/-- `sync` is whether `my_exit` deletes the timers with `del_timer_sync`. After both of them
it frees their data and returns. -/
def step (sync : Bool) (s : State) : Event → Except Unit State
  | .init =>
      match s.boot with
      | .adding i =>
          if i < 2 then .ok ⟨.adding (i + 1), Function.update s.timers i (s.timers i).addTimer⟩
          else .ok { s with boot := .loaded }
      | _ => .error ()
  | .exit =>
      match s.boot with
      | .loaded => .ok { s with boot := .deleting 0 }
      | .deleting i =>
          if i < 2 then do
            let t ← (s.timers i).delete sync
            .ok ⟨.deleting (i + 1), Function.update s.timers i t⟩
          else .ok { s with boot := .exited }
      | _ => .error ()
  | .timer i e => do
      let t ← (s.timers i).step e
      .ok { s with timers := Function.update s.timers i t }

/-- After `my_exit` no timer is pending, and no callback runs on the data. -/
def Quiet (s : State) : Prop := s.boot = .exited → ∀ i, s.timers i = .off

/-- `del_timer` finds no callback of its timer running. -/
def DeletesIdle (s : State) (e : Event) : Prop :=
  ∀ i, e = .exit → s.boot = .deleting i → i < 2 → (s.timers i).callback = .idle

end State

/-- The timers that have not been added yet, or have been deleted. -/
def Boot.Stopped : Boot → ℕ → Prop
  | .adding k, i => k ≤ i ∨ 2 ≤ i
  | .loaded, i => 2 ≤ i
  | .deleting k, i => i < k ∨ 2 ≤ i
  | .exited, _ => True

namespace State

variable {sync : Bool} {s s' : State} {e : Event}

def Inv (s : State) : Prop := ∀ i, s.boot.Stopped i → s.timers i = .off

theorem initial_inv : Inv initial := fun _ _ => rfl

theorem Inv.quiet (hi : Inv s) : Quiet s := fun hexited i => hi i (by rw [hexited]; trivial)

theorem init_inv (hi : Inv s) (h : step sync s .init = .ok s') : Inv s' := by
  cases hboot : s.boot with
  | adding k =>
      simp only [step, hboot] at h
      have hold : ∀ i, k ≤ i ∨ 2 ≤ i → s.timers i = .off := by
        simpa only [Inv, hboot, Boot.Stopped] using hi
      split at h
      · cases h
        intro i hstopped
        have hne : i ≠ k := by
          rcases hstopped with hlater | hbeyond
          · exact (Nat.lt_of_succ_le hlater).ne'
          · omega
        exact (Function.update_of_ne hne _ _).trans (hold i (hstopped.imp_left Nat.le_of_succ_le))
      · cases h
        exact fun i hbeyond => hold i (.inr hbeyond)
  | _ => simp [step, hboot] at h

theorem exit_inv (hi : Inv s) (hidle : sync = true ∨ DeletesIdle s .exit)
    (h : step sync s .exit = .ok s') : Inv s' := by
  cases hboot : s.boot with
  | loaded =>
      simp only [step, hboot] at h
      cases h
      intro i hstopped
      rcases hstopped with hnone | hbeyond
      · exact absurd hnone (Nat.not_lt_zero i)
      · exact hi i (by rw [hboot]; exact hbeyond)
  | deleting k =>
      have hold : ∀ i, i < k ∨ 2 ≤ i → s.timers i = .off := by
        simpa only [Inv, hboot, Boot.Stopped] using hi
      simp only [step, hboot] at h
      split at h
      · next hk =>
          obtain ⟨t, ht, h⟩ := Outcome.bind_eq_ok.mp h
          have hoff : t = .off :=
            Timer.delete_eq_off (hidle.imp_right fun hidle => hidle k rfl hboot hk) ht
          cases h
          intro i hstopped
          by_cases heq : i = k
          · rw [heq]
            exact (Function.update_self ..).trans hoff
          · refine (Function.update_of_ne heq _ _).trans (hold i (hstopped.imp_left fun hle => ?_))
            exact lt_of_le_of_ne (Nat.le_of_lt_succ hle) heq
      · next hk =>
          cases h
          intro i _
          apply hold
          omega
  | _ => simp [step, hboot] at h

theorem timer_inv {i : ℕ} {e : TimerEvent} (hi : Inv s) (h : step sync s (.timer i e) = .ok s') :
    Inv s' := by
  obtain ⟨t, ht, h⟩ := Outcome.bind_eq_ok.mp h
  cases h
  intro j hstopped
  have hoff := hi j hstopped
  have hne : j ≠ i := by
    rintro rfl
    rw [hoff, Timer.step_off] at ht
    cases ht
  exact (Function.update_of_ne hne _ _).trans hoff

theorem step_inv (hi : Inv s) (hidle : sync = true ∨ DeletesIdle s e)
    (h : step sync s e = .ok s') : Inv s' := by
  cases e with
  | init => exact init_inv hi h
  | exit => exact exit_inv hi hidle h
  | timer i e => exact timer_inv hi h

/-- With `del_timer_sync` every run of lab4_periodic_timers ends quietly. -/
theorem sync_quiet (es : List Event) : Runs.Always (step true) Quiet initial es :=
  Runs.always_of_inv (fun _ hi => hi.quiet) (fun _ _ _ hi h => step_inv hi (.inl rfl) h)
    initial_inv es

theorem exit_deleting {k : ℕ} (hk : k < 2) (hboot : s.boot = .deleting k) :
    step false s .exit =
      .ok ⟨.deleting (k + 1), Function.update s.timers k (s.timers k).delTimer⟩ := by
  simp [step, hboot, hk, Timer.delete]

/-- `del_timer` leaves the callbacks where they are. -/
theorem callback_delTimer (timers : ℕ → Timer) (k i : ℕ) :
    (Function.update timers k (timers k).delTimer i).callback = (timers i).callback := by
  by_cases heq : i = k
  · rw [heq, Function.update_self]
    rfl
  · rw [Function.update_of_ne heq]

/-- `my_exit` goes on to its end, and a callback that has been started is still there. -/
theorem goes_wrong {i k : ℕ} (hk : k ≤ 2) (hboot : s.boot = .deleting k)
    (hrunning : (s.timers i).callback ≠ .idle) : ∃ es, ¬ Runs.Always (step false) Quiet s es := by
  induction hk using Nat.decreasingInduction generalizing s with
  | self =>
      have hstep : step false s .exit = .ok { s with boot := .exited } := by
        simp [step, hboot]
      refine ⟨[.exit], fun halways => hrunning ?_⟩
      rw [halways.2 _ hstep rfl i]
      rfl
  | of_succ k hk ih =>
      obtain ⟨es, hes⟩ := ih (s := ⟨.deleting (k + 1), _⟩) rfl
        (by rwa [callback_delTimer s.timers k i])
      exact ⟨.exit :: es, fun halways => hes (halways.2 _ (exit_deleting hk hboot))⟩

theorem careless (hC : ¬ DeletesIdle s e) : ∃ es, ¬ Runs.Always (step false) Quiet s (e :: es) := by
  simp only [DeletesIdle, not_forall] at hC
  obtain ⟨i, rfl, hboot, hi, hrunning⟩ := hC
  obtain ⟨es, hes⟩ := goes_wrong (s := ⟨.deleting (i + 1), _⟩) (Nat.succ_le_of_lt hi) rfl
    (by rwa [callback_delTimer s.timers i i])
  exact ⟨es, fun halways => hes (halways.2 _ (exit_deleting hi hboot))⟩

end State

/-! ## tiny_tty.c -/

namespace TinyTty

/-- A port is active from its first open, by `tiny_activate`, to its last close, by
`tiny_shutdown`. -/
structure Port where
  active : Bool
  timer : Timer

abbrev State := ℕ → Port

inductive Event
  | activate (p : ℕ)
  | shutdown (p : ℕ)
  | timer (p : ℕ) (e : TimerEvent)

namespace State

def initial : State := fun _ => ⟨false, .off⟩

/-- `timer_setup` forgets that a timer is pending, and not that its callback runs. -/
def step (s : State) : Event → Except Unit State
  | .activate p =>
      if (s p).active then .error ()
      else .ok (Function.update s p ⟨true, (s p).timer.delTimer.addTimer⟩)
  | .shutdown p =>
      if (s p).active then .ok (Function.update s p ⟨false, (s p).timer.delTimer⟩)
      else .error ()
  | .timer p e => do
      let t ← (s p).timer.step e
      .ok (Function.update s p { s p with timer := t })

/-- From a shutdown to the next activation the timer of a port is not pending, and its
callback does not run. -/
def Quiet (s : State) : Prop := ∀ p, (s p).active = false → (s p).timer = .off

/-- `tiny_shutdown` finds no callback running. -/
def ShutsIdle (s : State) (e : Event) : Prop :=
  ∀ p, e = .shutdown p → (s p).active = true → (s p).timer.callback = .idle

variable {s s' : State} {e : Event}

theorem Quiet.update {p : ℕ} {port : Port} (hs : Quiet s)
    (hport : port.active = false → port.timer = .off) : Quiet (Function.update s p port) := by
  intro q hq
  by_cases heq : q = p
  · rw [heq, Function.update_self] at hq ⊢
    exact hport hq
  · rw [Function.update_of_ne heq] at hq ⊢
    exact hs q hq

theorem step_quiet (hs : Quiet s) (hC : ShutsIdle s e) (h : step s e = .ok s') : Quiet s' := by
  cases e with
  | activate p =>
      simp only [step] at h
      split at h
      · cases h
      · cases h
        exact hs.update nofun
  | shutdown p =>
      simp only [step] at h
      split at h
      · next hactive =>
          cases h
          exact hs.update fun _ => Timer.delTimer_eq_off (hC p rfl hactive)
      · cases h
  | timer p e =>
      obtain ⟨t, ht, h⟩ := Outcome.bind_eq_ok.mp h
      cases h
      refine hs.update fun hactive => ?_
      rw [hs p hactive, Timer.step_off] at ht
      cases ht

theorem not_quiet_of_not_shutsIdle (hC : ¬ ShutsIdle s e) :
    ∃ s', step s e = .ok s' ∧ ¬ Quiet s' := by
  simp only [ShutsIdle, not_forall] at hC
  obtain ⟨p, rfl, hactive, hrunning⟩ := hC
  refine ⟨Function.update s p ⟨false, (s p).timer.delTimer⟩, if_pos hactive, fun hquiet => ?_⟩
  have hoff := hquiet p (by rw [Function.update_self])
  rw [Function.update_self] at hoff
  exact hrunning (congrArg Timer.callback hoff)

end State

end TinyTty

/-- Teardown with `del_timer` is quiet while no callback runs at that moment. With a callback
running, a port is not quiet then, and `my_exit` can go on to its end before the callback. -/
theorem teardown_quiet (es : List Event) (ports : List TinyTty.Event) :
    ((Runs.Along (State.step false) State.DeletesIdle State.initial es →
        Runs.Always (State.step false) State.Quiet State.initial es) ∧
      (¬ Runs.Along (State.step false) State.DeletesIdle State.initial es →
        Runs.Breaks (State.step false) State.DeletesIdle State.Quiet State.initial es)) ∧
    (Runs.Always TinyTty.State.step TinyTty.State.Quiet TinyTty.State.initial ports ↔
      Runs.Along TinyTty.State.step TinyTty.State.ShutsIdle TinyTty.State.initial ports) :=
  ⟨Runs.always_or_breaks (I := State.Inv) (fun _ hi => hi.quiet)
      (fun _ _ _ hi hC h => State.step_inv hi (.inr hC) h) (fun _ _ _ hC => State.careless hC) es
      State.initial_inv,
    Runs.always_iff_along (I := TinyTty.State.Quiet) (fun _ hs => hs)
      (fun _ _ _ hs hC h => TinyTty.State.step_quiet hs hC h)
      (fun _ _ _ hC => TinyTty.State.not_quiet_of_not_shutsIdle hC) fun _ _ => rfl⟩

/-- A callback that `del_timer` does not wait for arms its timer again. -/
theorem rearmed_after_teardown :
    (∃ s, Runs.exec (State.step false) State.initial [.init, .init, .init, .timer 0 .expire,
        .timer 0 .read, .exit, .exit, .exit, .exit, .timer 0 .rearm] = .ok s ∧
      s.boot = .exited ∧ s.timers 0 = ⟨true, .returning⟩ ∧ ¬ s.Quiet) ∧
    ∃ s, Runs.exec TinyTty.State.step TinyTty.State.initial [.activate 0, .timer 0 .expire,
        .timer 0 .read, .shutdown 0, .timer 0 .rearm] = .ok s ∧
      s 0 = ⟨false, ⟨true, .returning⟩⟩ ∧ ¬ s.Quiet := by
  refine ⟨⟨_, rfl, rfl, rfl, fun hquiet => ?_⟩, ⟨_, rfl, rfl, fun hquiet => ?_⟩⟩
  · cases hquiet rfl 0
  · cases hquiet 0 rfl

end LddSamples.Timers.Periodic

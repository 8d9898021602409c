import LddSamples.Library.Runs

/-!
# lab3_workqueue and lab3_tasklet: the last scancode

The handler leaves the scancode in one shared place and schedules a deferred function
that reads it. Scheduling coalesces while the deferred function is pending. The
workqueue driver schedules first and stores second; the tasklet driver does it in the
other order.
-/

namespace LddSamples.Interrupts.Scancode

def KBD_SCANCODE_MASK : UInt8 := 0x7f

/-- `scancode & KBD_SCANCODE_MASK`. -/
def masked (scancode : UInt8) : ℕ := (scancode &&& KBD_SCANCODE_MASK).toNat

inductive Driver
  | workqueue
  | tasklet

/-- Where `my_interrupt` stands: it has read the scancode, or it has done the first or
both of its two steps. -/
inductive IrqPc
  | idle
  | read (scancode : UInt8)
  | first (scancode : UInt8)
  | both

/-- Where the deferred function stands: before it reads the stored value, or after. -/
inductive DeferPc
  | idle
  | started
  | finishing

/-- `data` is `my_data.len`, or `t_data.code` of the tasklet driver. `processed` is the
last value that the deferred function has read, and `received` the last scancode, for
the statements. -/
structure State where
  data : ℕ
  pending : Bool
  handler : IrqPc
  deferred : DeferPc
  processed : Option ℕ
  received : Option UInt8

inductive Event
  | arrive (scancode : UInt8)
  | firstStep
  | secondStep
  | leave
  | start
  | process
  | finish

namespace State

def initial : State := ⟨0, false, .idle, .idle, none, none⟩

/-- `atomic_set(&data->len, ..)`, or the assignment to `t_data.code`. -/
def store (s : State) (scancode : UInt8) : State := { s with data := masked scancode }

/-- `schedule_work` and `tasklet_schedule`: nothing more when it is pending already. -/
def schedule (s : State) : State := { s with pending := true }

def step (d : Driver) (s : State) : Event → Except Unit State
  | .arrive scancode =>
      match s.handler with
      | .idle => .ok { s with handler := .read scancode, received := some scancode }
      | _ => .error ()
  | .firstStep =>
      match s.handler with
      | .read scancode =>
          match d with
          | .workqueue => .ok { s.schedule with handler := .first scancode }
          | .tasklet => .ok { s.store scancode with handler := .first scancode }
      | _ => .error ()
  | .secondStep =>
      match s.handler with
      | .first scancode =>
          match d with
          | .workqueue => .ok { s.store scancode with handler := .both }
          | .tasklet => .ok { s.schedule with handler := .both }
      | _ => .error ()
  | .leave =>
      match s.handler with
      | .both => .ok { s with handler := .idle }
      | _ => .error ()
  | .start =>
      match s.pending, s.deferred with
      | true, .idle => .ok { s with pending := false, deferred := .started }
      | _, _ => .error ()
  | .process =>
      match s.deferred with
      | .started => .ok { s with processed := some s.data, deferred := .finishing }
      | _ => .error ()
  | .finish =>
      match s.deferred with
      | .finishing => .ok { s with deferred := .idle }
      | _ => .error ()

/-- With nothing in progress, the last value processed is the last scancode. -/
def UpToDate (s : State) : Prop :=
  s.pending = false → s.deferred = .idle → s.handler = .idle →
    ∀ scancode, s.received = some scancode → s.processed = some (masked scancode)

/-- The deferred function has yet to read the stored value, or has read the value `v`
that is going to be stored. -/
def Sees (s : State) (v : ℕ) : Prop :=
  s.pending = true ∨ s.deferred = .started ∨ s.processed = some v

/-- The scancode is stored while it can still be seen. -/
def StoredInTime (s : State) (e : Event) : Prop :=
  ∀ scancode, e = .secondStep → s.handler = .first scancode → s.Sees (masked scancode)

end State

namespace State

variable {d : Driver} {s s' : State} {e : Event}

/-- What holds of the last scancode at each place of the handler. -/
def At (d : Driver) (s : State) : IrqPc → Prop
  | .read scancode => s.received = some scancode
  | .first scancode =>
      s.received = some scancode ∧ (d = .tasklet → s.data = masked scancode)
  | _ => ∀ scancode, s.received = some scancode →
      s.data = masked scancode ∧ s.Sees (masked scancode)

def Inv (d : Driver) (s : State) : Prop := s.At d s.handler

theorem initial_inv (d : Driver) : Inv d initial := nofun

theorem Inv.upToDate (h : Inv d s) : UpToDate s := by
  intro hpending hdeferred hhandler scancode hreceived
  rw [Inv, hhandler] at h
  rcases (h scancode hreceived).2 with hsees | hsees | hsees
  · rw [hpending] at hsees
    cases hsees
  · rw [hdeferred] at hsees
    cases hsees
  · exact hsees

/-- A step of the deferred function, which sees all that is still to be seen. -/
theorem At.defer {pc : IrqPc} (h : s.At d pc) (hreceived : s'.received = s.received)
    (hdata : s'.data = s.data) (hsees : ∀ v, s.data = v → s.Sees v → s'.Sees v) : s'.At d pc := by
  cases pc with
  | read scancode => exact hreceived.trans h
  | first scancode => exact ⟨hreceived.trans h.1, fun hd => hdata.trans (h.2 hd)⟩
  | idle =>
      intro scancode hlast
      obtain ⟨hstored, hseen⟩ := h scancode (hreceived ▸ hlast)
      exact ⟨hdata.trans hstored, hsees _ hstored hseen⟩
  | both =>
      intro scancode hlast
      obtain ⟨hstored, hseen⟩ := h scancode (hreceived ▸ hlast)
      exact ⟨hdata.trans hstored, hsees _ hstored hseen⟩

theorem step_inv (hi : Inv d s) (hC : d = .workqueue → StoredInTime s e)
    (h : step d s e = .ok s') : Inv d s' := by
  cases e with
  | arrive scancode =>
      simp only [step] at h
      split at h
      · cases h
        exact (rfl : some scancode = some scancode)
      · cases h
  | firstStep =>
      simp only [step] at h
      split at h
      · next scancode hpc =>
          rw [Inv, hpc] at hi
          cases d with
          | workqueue =>
              cases h
              exact ⟨hi, nofun⟩
          | tasklet =>
              cases h
              exact ⟨hi, fun _ => rfl⟩
      · cases h
  | secondStep =>
      simp only [step] at h
      split at h
      · next scancode hpc =>
          rw [Inv, hpc] at hi
          obtain ⟨hreceived, hdata⟩ := hi
          cases d with
          | workqueue =>
              have hsees := hC rfl scancode rfl hpc
              cases h
              intro last hlast
              obtain rfl : scancode = last := Option.some.inj (hreceived.symm.trans hlast)
              exact ⟨rfl, hsees⟩
          | tasklet =>
              cases h
              intro last hlast
              obtain rfl : scancode = last := Option.some.inj (hreceived.symm.trans hlast)
              exact ⟨hdata rfl, .inl rfl⟩
      · cases h
  | leave =>
      simp only [step] at h
      split at h
      · next hpc =>
          rw [Inv, hpc] at hi
          cases h
          exact hi
      · cases h
  | start =>
      simp only [step] at h
      split at h
      · cases h
        exact At.defer hi rfl rfl fun _ _ _ => .inr (.inl rfl)
      · cases h
  | process =>
      simp only [step] at h
      split at h
      · cases h
        exact At.defer hi rfl rfl fun v hv _ => .inr (.inr (congrArg some hv))
      · cases h
  | finish =>
      simp only [step] at h
      split at h
      · next hpc =>
          cases h
          refine At.defer hi rfl rfl ?_
          rintro v - (hpending | hstarted | hprocessed)
          · exact .inl hpending
          · rw [hpc] at hstarted
            cases hstarted
          · exact .inr (.inr hprocessed)
      · cases h

/-- A scancode that is stored too late is not processed by the time all is done. -/
theorem late_store_unseen (hi : Inv .workqueue s) (hC : ¬ StoredInTime s e) :
    ∃ fs, ¬ Runs.Always (step .workqueue) UpToDate s (e :: fs) := by
  simp only [StoredInTime] at hC
  push Not at hC
  obtain ⟨scancode, rfl, hpc, hsees⟩ := hC
  rw [Inv, hpc] at hi
  simp only [Sees] at hsees
  push Not at hsees
  obtain ⟨hpending, hstarted, hprocessed⟩ := hsees
  have hpending : s.pending = false := by simpa using hpending
  cases hdeferred : s.deferred with
  | started => exact absurd hdeferred hstarted
  | idle =>
      have hexec : Runs.exec (step .workqueue) s [.secondStep, .leave] =
          .ok { s with data := masked scancode, handler := .idle } := by
        simp [step, hpc, store]
      refine ⟨[.leave], Runs.not_always_of_exec hexec fun hlast => ?_⟩
      exact hprocessed (hlast hpending hdeferred rfl scancode hi.1)
  | finishing =>
      have hexec : Runs.exec (step .workqueue) s [.secondStep, .leave, .finish] =
          .ok { s with data := masked scancode, handler := .idle, deferred := .idle } := by
        simp [step, hpc, hdeferred, store]
      refine ⟨[.leave, .finish], Runs.not_always_of_exec hexec fun hlast => ?_⟩
      exact hprocessed (hlast hpending rfl rfl scancode hi.1)

/-- Runs of the workqueue driver that store each scancode while it can still be seen end
up with the last one, and a run breaks where the first one is stored too late. -/
theorem upToDate_of_stored (es : List Event) :
    (Runs.Along (step .workqueue) StoredInTime initial es →
        Runs.Always (step .workqueue) UpToDate initial es) ∧
      (¬ Runs.Along (step .workqueue) StoredInTime initial es →
        Runs.Breaks (step .workqueue) StoredInTime UpToDate initial es) := by
  apply Runs.always_or_breaks (I := Inv .workqueue)
  · intro s hi
    exact hi.upToDate
  · intro s e s' hi hC h
    exact step_inv hi (fun _ => hC) h
  · intro s e hi hC
    exact late_store_unseen hi hC
  · exact initial_inv .workqueue

/-- `w_fun` runs on another CPU as soon as it is queued, and reads the value from before
the scancode. -/
theorem scancode_unseen :
    ∃ s, Runs.exec (step .workqueue) initial
        [.arrive 0x1e, .firstStep, .start, .process, .finish, .secondStep, .leave] = .ok s ∧
      s.pending = false ∧ s.deferred = .idle ∧ s.handler = .idle ∧ s.received = some 0x1e ∧
      s.processed = some 0 ∧ ¬ UpToDate s := by
  refine ⟨_, rfl, rfl, rfl, rfl, rfl, rfl, ?_⟩
  intro hlast
  exact absurd (hlast rfl rfl rfl 0x1e rfl) (by decide)

/-- The tasklet driver, which stores first, never misses the last scancode. -/
theorem tasklet_upToDate (es : List Event) :
    Runs.Always (step .tasklet) UpToDate initial es := by
  apply Runs.always_of_inv (I := Inv .tasklet) ?_ ?_ (initial_inv .tasklet)
  · intro s hi
    exact hi.upToDate
  · intro s e s' hi h
    exact step_inv hi nofun h

end State

end LddSamples.Interrupts.Scancode

import LddSamples.Hardware.FullMouse

/-!
# Reads of the mouse that fail

The readers of `lab4_full_mouse_driver` once more, with a `copy_to_user` that may fail. The
read leaves at once then, behind the `disable_irq` and before the `enable_irq`.
-/

namespace LddSamples.Hardware.FullMouse

open Kernel

/-- The steps of the driver with a good user buffer, and the copy into a bad one. -/
inductive FaultyEvent
  | sound (e : Event)
  | fault (r : ℕ)

namespace State

variable {s s' : State} {e : FaultyEvent} {es : List FaultyEvent} {k : ℕ}

def faultyStep (s : State) : FaultyEvent → Except Unit State
  | .sound e => s.step e
  | .fault r =>
      match s.readers r with
      | .disabled _ => .ok (s.leave r (-EFAULT))
      | _ => .error ()

/-- No read is in progress. -/
def AtRest (s : State) : Prop := ∀ r, s.readers r = .idle

/-- How many copies of a run have failed. -/
def faults : List FaultyEvent → ℕ
  | [] => 0
  | .sound _ :: es => faults es
  | .fault _ :: es => faults es + 1

/-- The interrupt is off for the readers that hold it off, and `k` times for good. -/
def Owes (k : ℕ) (s : State) : Prop :=
  ∃ n, Census.Counts Pc.HasIrq s.readers n ∧ s.depth = n + k

theorem owes_initial : Owes 0 initial := ⟨0, Census.counts_zero fun _ h => h, rfl⟩

theorem fault_does {r : ℕ} (h : faultyStep s (.fault r) = .ok s') :
    (∃ lbuf, s.readers r = .disabled lbuf) ∧ s' = s.leave r (-EFAULT) := by
  simp only [faultyStep] at h
  split at h
  · next lbuf hpc =>
      cases h
      exact ⟨⟨lbuf, hpc⟩, rfl⟩
  · cases h

theorem Owes.sound {e : Event} (hs : Owes k s) (h : s.step e = .ok s') : Owes k s' := by
  obtain ⟨n, hcounts, hdepth⟩ := hs
  obtain ⟨n', hcounts', hmoves⟩ := step_counts hcounts (by omega) h
  exact ⟨n', hcounts', by omega⟩

/-- A reader that leaves by a fault takes its `disable_irq` with it. -/
theorem Owes.fault {r : ℕ} (hs : Owes k s) (h : faultyStep s (.fault r) = .ok s') :
    Owes (k + 1) s' := by
  obtain ⟨n, hcounts, hdepth⟩ := hs
  obtain ⟨⟨lbuf, hpc⟩, rfl⟩ := fault_does h
  have hirq : (s.readers r).HasIrq := by simp [hpc, Pc.HasIrq]
  refine ⟨n - 1, hcounts.leaves hirq id, ?_⟩
  have hpos := hcounts.ne_zero hirq
  change s.depth = n - 1 + (k + 1)
  omega

theorem Owes.exec (hs : Owes k s) (h : Runs.exec faultyStep s es = .ok s') :
    Owes (k + faults es) s' := by
  induction es generalizing s k with
  | nil =>
      cases h
      exact hs
  | cons e es ih =>
      obtain ⟨t, ht, hrest⟩ := Outcome.bind_eq_ok.mp h
      cases e with
      | sound e => exact ih (hs.sound ht) hrest
      | fault r =>
          have howes := ih (hs.fault ht) hrest
          rwa [Nat.add_right_comm, Nat.add_assoc] at howes

theorem faults_eq_zero_iff : faults es = 0 ↔ ∀ r, FaultyEvent.fault r ∉ es := by
  induction es with
  | nil => simp [faults]
  | cons e es ih =>
      cases e with
      | sound e => simp [faults, ih]
      | fault r =>
          refine iff_of_false (Nat.succ_ne_zero _) fun h => ?_
          exact h r List.mem_cons_self

theorem depth_atRest (h : Runs.exec faultyStep initial es = .ok s) (hrest : s.AtRest) :
    s.depth = faults es := by
  obtain ⟨n, hcounts, hdepth⟩ := owes_initial.exec h
  have hzero : n = 0 := hcounts.eq_zero fun r => by
    rw [hrest r]
    exact id
  omega

/-! ## The pending packet -/

/-- A read that nothing comes between. -/
def readBy (r lbuf : ℕ) (nodelay : Bool) : List FaultyEvent :=
  [.sound (.call r lbuf nodelay), .sound (.test r), .sound (.disableIrq r), .sound (.copyToUser r),
    .sound (.clearReady r), .sound (.enableIrq r)]

/-- The next read, whoever makes it, returns `p`. -/
def Offers (s : State) (p : Packet) : Prop :=
  ∀ r lbuf nodelay, s.readers r = .idle → 3 ≤ lbuf →
    ∃ s', Runs.exec faultyStep s (readBy r lbuf nodelay) = .ok s' ∧
      s'.returned = s.returned ++ [p] ∧ s'.results = s.results ++ [(r, (lbuf : ℤ))]

theorem offers_of_ready (hready : s.device.ready = true) : Offers s s.device.packet := by
  intro r lbuf nodelay hidle hlbuf
  refine ⟨{ s.leave r lbuf with
    device := { s.device with ready := false }
    copied := s.copied ++ [s.device.packet]
    returned := s.returned ++ [s.device.packet] }, ?_, rfl, rfl⟩
  simp [readBy, faultyStep, step, hidle, hready, Nat.not_lt.mpr hlbuf, goto, leave]

theorem offers_of_fault {r : ℕ} (hready : s.device.ready = true)
    (h : faultyStep s (.fault r) = .ok s') : Offers s' s.device.packet := by
  obtain ⟨-, rfl⟩ := fault_does h
  exact offers_of_ready hready

/-- With no read in progress the interrupt is on exactly when no copy has failed before, and
the read whose copy fails leaves the packet to the next one. -/
theorem enabled_atRest_iff (es : List FaultyEvent) (s : State)
    (h : Runs.exec faultyStep initial es = .ok s) :
    (s.AtRest → (s.depth = 0 ↔ ∀ r, FaultyEvent.fault r ∉ es)) ∧
      ∀ r s', s.device.ready = true → faultyStep s (.fault r) = .ok s' →
        Offers s' s.device.packet := by
  refine ⟨fun hrest => ?_, fun r s' hready hfault => offers_of_fault hready hfault⟩
  rw [depth_atRest h hrest]
  exact faults_eq_zero_iff

/-- A packet arrives, and the reader that takes it has a bad buffer. -/
def badBuffer : List FaultyEvent :=
  [.sound (.call 0 3 false), .sound (.byte 0x40), .sound (.byte 1), .sound (.byte 2),
    .sound (.test 0), .sound (.disableIrq 0), .fault 0]

/-- No read is in progress behind the fault, the interrupt is off, and no byte comes in. -/
theorem badBuffer_atRest : ∃ s, Runs.exec faultyStep initial badBuffer = .ok s ∧ s.AtRest ∧
    s.depth = 1 ∧ ∀ b, faultyStep s (.sound (.byte b)) = .error () := by
  refine ⟨_, rfl, fun r => ?_, rfl, fun b => rfl⟩
  cases r <;> rfl

theorem enabled_atRest_iff_badBuffer :
    ∃ s, Runs.exec faultyStep initial badBuffer = .ok s ∧
      (s.AtRest → (s.depth = 0 ↔ ∀ r, FaultyEvent.fault r ∉ badBuffer)) ∧
        ∀ r s', s.device.ready = true → faultyStep s (.fault r) = .ok s' →
          Offers s' s.device.packet :=
  ⟨_, rfl, enabled_atRest_iff badBuffer _ rfl⟩

end State

end LddSamples.Hardware.FullMouse

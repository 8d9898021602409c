import LddSamples.Scullc.System

/-!
# The divisors of scullc over whole runs

The two divisors of a transfer are the device's own, taken over from the module's
variables by the last trim. They stay positive exactly as long as no trim finds
bad variables.
-/

namespace LddSamples.Scullc

open Kernel CArith Outcome

namespace System

def DivisorsPositive (dev : ScullcDev) : Prop :=
  0 < toInt32 (dev.quantum * dev.qset) ∧ 0 < dev.quantum

def Divides (sys : System) (call : Call) (i : Fin SCULLC_DEVS) (pos : ℤ) : Prop :=
  sys.Writes call i pos ∨ (sys.Reads call i pos ∧ toUInt64 pos ≤ (sys.devs i).size)

/-- Wherever the call divides, no divisor is zero and no result is negative. -/
def DividesWell (sys : System) (call : Call) : Prop :=
  ∀ i pos, sys.Divides call i pos → ∃ loc,
    locate (sys.devs i).quantum (sys.devs i).qset pos = .ok loc ∧
      0 ≤ loc.item ∧ 0 ≤ loc.sPos ∧ 0 ≤ loc.qPos

def TrimsWell (sys : System) (call : Call) : Prop :=
  ∀ i, sys.Trims call i → 0 < toInt32 (sys.module.scullcQuantum * sys.module.scullcQset) ∧
    0 < sys.module.scullcQuantum

/-- Wherever the call divides, the list index keeps its sign when it is cut down
to an `int`. -/
def ItemFits (sys : System) (call : Call) : Prop :=
  ∀ i pos, sys.Divides call i pos →
    pos / toInt32 ((sys.devs i).quantum * (sys.devs i).qset) % 4294967296 < 2147483648

def InShape (sys : System) : Prop := ∀ i, DivisorsPositive (sys.devs i) ∧ Shaped (sys.devs i)

theorem initial_inShape : initial.InShape := by
  intro i
  have hdivisors : 0 < toInt32 (ScullcDev.initial.quantum * ScullcDev.initial.qset) ∧
      0 < ScullcDev.initial.quantum := by decide
  refine ⟨hdivisors, fun j data hdata => ?_⟩
  have hnone : ScullcDev.initial.dataAt j = none := fresh_dataAt _ _ j
  have hdata : ScullcDev.initial.dataAt j = some data := hdata
  rw [hnone] at hdata
  cases hdata

variable {sys sys' : System} {call : Call}

theorem step_inShape (hsys : sys.InShape) (htrims : sys.TrimsWell call)
    (h : sys.step call = .ok sys') : sys'.InShape := by
  intro i
  obtain ⟨hdivisors, hshaped⟩ := hsys i
  rcases step_devs h i with hsame | ⟨htrim, hdev⟩ | ⟨pos, -, env, heap, buf, aio, t, hwrite, hdev⟩
  · refine ⟨?_, hsame.shaped hshaped⟩
    unfold DivisorsPositive
    rwa [hsame.quantum, hsame.qset]
  · rw [hdev]
    exact ⟨htrims i htrim, trimmed_shaped _ _⟩
  · obtain ⟨hquantum, hqset, -⟩ := writeLocked_geometry hwrite
    rw [hdev]
    refine ⟨?_, writeLocked_shaped hwrite ((SameData.lock _).shaped hshaped)⟩
    unfold DivisorsPositive
    rwa [hquantum, hqset]

theorem dividesWell_iff (hsys : sys.InShape) : sys.DividesWell call ↔ sys.ItemFits call := by
  refine forall_congr' fun i => forall_congr' fun pos => imp_congr_right fun hdivides => ?_
  obtain ⟨⟨hitemsize, hquantum⟩, -⟩ := hsys i
  have hpos : 0 ≤ pos := by
    rcases hdivides with ⟨_, _, _, _, _, _, -, -, -, -, -, hpos⟩ |
      ⟨⟨_, _, _, _, _, _, -, -, -, -, -, hpos⟩, -⟩
    · exact hpos
    · exact hpos
  obtain ⟨loc, hloc, hitem, hsPos, hqPos⟩ := locate_of_pos hitemsize hquantum hpos
  rw [← toInt32_nonneg_iff, ← hitem]
  constructor
  · rintro ⟨loc', hloc', hnonneg, -⟩
    rw [hloc] at hloc'
    cases hloc'
    exact hnonneg
  · intro hnonneg
    exact ⟨loc, hloc, hnonneg, hsPos, hqPos⟩

theorem next_positive_iff (hsys : sys.InShape) :
    (∀ sys', sys.step call = .ok sys' → ∀ i, DivisorsPositive (sys'.devs i)) ↔
      sys.TrimsWell call := by
  constructor
  · intro hnext i htrim
    obtain ⟨sys', hstep, hdev⟩ := step_of_trims htrim (hsys i).2
    have hgood := hnext sys' hstep i
    rw [hdev] at hgood
    exact hgood
  · intro htrims sys' hstep i
    exact (step_inShape hsys htrims hstep i).1

/-- In every run from the loaded module the divisors are positive in all states
and all transfers divide well, exactly when every trim finds variables that can be
divided by and every list index fits an `int`. -/
theorem divisors_positive_iff (calls : List Call) :
    (Runs.Always step (fun sys => ∀ i, DivisorsPositive (sys.devs i)) initial calls ∧
        Runs.Along step DividesWell initial calls) ↔
      Runs.Along step (fun sys call => sys.TrimsWell call ∧ sys.ItemFits call) initial calls := by
  rw [Runs.always_iff_next, and_iff_right fun i => (initial_inShape i).1, ← Runs.along_and]
  apply Runs.along_congr (I := InShape) (fun sys call hsys => ?_)
    (fun sys call sys' hsys hC h => ?_) initial_inShape
  · rw [next_positive_iff hsys, dividesWell_iff hsys]
  · exact step_inShape hsys hC.1 h

/-- `SCULLC_IOCTQUANTUM` accepts 0, the next write-only open takes it over, and
the next write divides by it. -/
theorem zero_quantum_divides :
    ∃ sys, Runs.exec step initial
        [.ioctl SCULLC_IOCTQUANTUM 0 ⟨none, true⟩, .openDev 0 0 O_WRONLY Env.calm] = .ok sys ∧
      (sys.devs 0).quantum = 0 ∧
      sys.step (.write 0 Env.calm [7] none false) = .error .divideError ∧
      ¬ Runs.Always step (fun sys => ∀ i, DivisorsPositive (sys.devs i)) initial
        [.ioctl SCULLC_IOCTQUANTUM 0 ⟨none, true⟩, .openDev 0 0 O_WRONLY Env.calm] := by
  refine ⟨_, rfl, rfl, rfl, fun halways => ?_⟩
  have hlast := Runs.always_iff.mp halways _ (List.prefix_refl _) _ rfl 0
  exact absurd hlast.2 (by decide)

end System

end LddSamples.Scullc

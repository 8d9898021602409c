import LddSamples.Interrupts.AllLines

/-!
# lab7_all_workqueue_dynamic and lab7_all_tasklet_dynamic

Each interrupt allocates an object of its own and schedules it; the deferred function
counts a bottom half for the line of its object and frees it. The two drivers differ in
what they schedule, a work item or a tasklet. Meanwhile `get_irqs` goes through the
lines, and a line is live from the moment `request_irq` returns.
-/

namespace LddSamples.Interrupts.AllDynamic

open Kernel CArith

/-- Both arrays fit the ramdisk. -/
structure Config extends AllLines.Config where
  fits : 2 * (nrIrqs * 4) ≤ PAGE_SIZE

/-- Where `get_irqs` stands with a line: before it writes the flag -1, before
`request_irq`, and before it replaces the flag by 0. -/
inductive GetPc
  | flag (irq : ℕ)
  | request (irq : ℕ)
  | zero (irq : ℕ)
  | done

/-- Where the handler of a line stands: `allocated` is before it counts the interrupt,
`counted` before it schedules its object, `scheduled` before it returns. -/
inductive IrqPc
  | idle
  | allocated
  | counted
  | scheduled

/-- `queued` and `running` hold the `data->irq` of the objects that wait for their
deferred function, and of those that have been counted but not yet freed. `delivered`
counts the interrupts of each line, for the statements. -/
structure State where
  interrupts : ℕ → ℤ
  bhs : ℕ → ℤ
  live : ℕ → Bool
  boot : GetPc
  handler : ℕ → IrqPc
  queued : List ℕ
  running : List ℕ
  delivered : ℕ → ℕ

inductive Event
  | flag
  | request
  | zero
  | arrive (i : ℕ)
  | count (i : ℕ)
  | schedule (i : ℕ)
  | leave (i : ℕ)
  | run (i : ℕ)
  | free (i : ℕ)

namespace State

/-- Before `get_irqs`, the ramdisk holds whatever `kmalloc` found there. -/
def loaded (interrupts bhs : ℕ → ℤ) : State :=
  ⟨interrupts, bhs, fun _ => false, .flag 0, fun _ => .idle, [], [], fun _ => 0⟩

def goto (s : State) (i : ℕ) (pc : IrqPc) : State :=
  { s with handler := Function.update s.handler i pc }

def step (cfg : Config) (s : State) : Event → Except Unit State
  | .flag =>
      match s.boot with
      | .flag irq =>
          if irq < cfg.nrIrqs then .ok { s with
            interrupts := Function.update s.interrupts irq (-1)
            bhs := Function.update s.bhs irq 0
            boot := .request irq }
          else .ok { s with boot := .done }
      | _ => .error ()
  | .request =>
      match s.boot with
      | .request irq =>
          if cfg.canShare irq then .ok { s with
            live := Function.update s.live irq true
            boot := .zero irq }
          else .ok { s with boot := .flag (irq + 1) }
      | _ => .error ()
  | .zero =>
      match s.boot with
      | .zero irq => .ok { s with
          interrupts := Function.update s.interrupts irq 0
          boot := .flag (irq + 1) }
      | _ => .error ()
  | .arrive i =>
      match s.handler i, s.live i with
      | .idle, true => .ok { s.goto i .allocated with
          delivered := Function.update s.delivered i (s.delivered i + 1) }
      | _, _ => .error ()
  | .count i =>
      match s.handler i with
      | .allocated => .ok { s.goto i .counted with
          interrupts := Function.update s.interrupts i (atomicInc (s.interrupts i)) }
      | _ => .error ()
  | .schedule i =>
      match s.handler i with
      | .counted => .ok { s.goto i .scheduled with queued := i :: s.queued }
      | _ => .error ()
  | .leave i =>
      match s.handler i with
      | .scheduled => .ok (s.goto i .idle)
      | _ => .error ()
  | .run i =>
      if i ∈ s.queued then .ok { s with
        queued := s.queued.erase i
        running := i :: s.running
        bhs := Function.update s.bhs i (atomicInc (s.bhs i)) }
      else .error ()
  | .free i =>
      if i ∈ s.running then .ok { s with running := s.running.erase i } else .error ()

/-- No handler and no deferred function has anything left to do. -/
def Quiet (s : State) : Prop :=
  s.boot = .done ∧ (∀ i, s.handler i = .idle) ∧ s.queued = [] ∧ s.running = []

/-- When all is quiet, both counters of a registered line are the number of its
interrupts. -/
def Settles (s : State) : Prop :=
  s.Quiet → ∀ i, s.live i = true → s.interrupts i = s.bhs i ∧ s.bhs i = s.delivered i

/-- `get_irqs` finds its flag as it has left it when it replaces it by 0, and counters
have not reached the largest `int` when they are incremented. -/
def FlagIntact (s : State) (e : Event) : Prop :=
  (∀ i, e = .zero → s.boot = .zero i → s.interrupts i = -1) ∧
    (∀ i, e = .count i → s.interrupts i < INT_MAX) ∧ ∀ i, e = .run i → s.bhs i < INT_MAX

end State

/-- The lines that `get_irqs` has yet to request. -/
def GetPc.Ahead : GetPc → ℕ → Prop
  | .flag irq, i => irq ≤ i
  | .request irq, i => irq ≤ i
  | .zero irq, i => irq < i
  | .done, _ => False

/-- The flag counts as one interrupt less. -/
def GetPc.lag (i : ℕ) : GetPc → ℤ
  | .zero irq => if irq = i then 1 else 0
  | _ => 0

@[simp] def IrqPc.uncounted : IrqPc → ℤ
  | .allocated => 1
  | _ => 0

@[simp] def IrqPc.unscheduled : IrqPc → ℤ
  | .allocated => 1
  | .counted => 1
  | _ => 0

namespace State

/-- The account of a line: with the events on their way, both counters come to the
number of its interrupts. -/
structure Line (s : State) (i : ℕ) : Prop where
  th : s.interrupts i + s.boot.lag i + (s.handler i).uncounted = s.delivered i
  bh : s.bhs i + s.queued.count i + (s.handler i).unscheduled = s.delivered i
  low : -1 ≤ s.interrupts i
  nonneg : 0 ≤ s.bhs i

structure Inv (s : State) : Prop where
  ahead : ∀ i, s.boot.Ahead i → s.live i = false
  dead : ∀ i, s.live i = false → s.delivered i = 0 ∧ s.handler i = .idle ∧ i ∉ s.queued
  flagged : ∀ i, s.boot = .request i → s.interrupts i = -1 ∧ s.bhs i = 0
  line : ∀ i, s.live i = true → s.Line i

variable {cfg : Config} {s s' : State} {e : Event}

theorem loaded_inv (interrupts bhs : ℕ → ℤ) : Inv (loaded interrupts bhs) where
  ahead _ _ := rfl
  dead _ _ := ⟨rfl, rfl, List.not_mem_nil⟩
  flagged _ := nofun
  line _ := nofun

theorem Inv.settles (h : Inv s) : Settles s := by
  rintro ⟨hboot, hhandler, hqueued, -⟩ i hlive
  obtain ⟨hth, hbh, -, -⟩ := h.line i hlive
  simp only [hboot, hhandler i, hqueued, GetPc.lag, IrqPc.uncounted, IrqPc.unscheduled,
    List.count_nil] at hth hbh
  omega

theorem atomicInc_of_flag {v : ℤ} (hlow : -1 ≤ v) (hhigh : v < INT_MAX) : atomicInc v = v + 1 :=
  toInt32_of_mem (by omega) (by omega)

/-- The other lines have what they had. -/
structure Elsewhere (s s' : State) (j : ℕ) : Prop where
  live : s'.live = s.live
  boot : s'.boot = s.boot
  interrupts : ∀ i, i ≠ j → s'.interrupts i = s.interrupts i
  bhs : ∀ i, i ≠ j → s'.bhs i = s.bhs i
  handler : ∀ i, i ≠ j → s'.handler i = s.handler i
  queued : ∀ i, i ≠ j → s'.queued.count i = s.queued.count i
  delivered : ∀ i, i ≠ j → s'.delivered i = s.delivered i

/-- The events of a live line have to keep its own account only. -/
theorem Inv.of_line (h : Inv s) {j : ℕ} (hlive : s.live j = true) (helse : Elsewhere s s' j)
    (hline : s'.Line j) : Inv s' := by
  obtain ⟨hlive', hboot, hinterrupts, hbhs, hhandler, hqueued, hdelivered⟩ := helse
  have hne : ∀ i, s.live i = false → i ≠ j := by
    rintro i hdead rfl
    rw [hlive] at hdead
    cases hdead
  constructor
  · intro i hahead
    rw [hlive']
    rw [hboot] at hahead
    exact h.ahead i hahead
  · intro i hdead
    rw [hlive'] at hdead
    have hi := hne i hdead
    obtain ⟨hnone, hidle, hmem⟩ := h.dead i hdead
    refine ⟨(hdelivered i hi).trans hnone, (hhandler i hi).trans hidle, ?_⟩
    rw [← List.count_eq_zero, hqueued i hi, List.count_eq_zero]
    exact hmem
  · intro i hrequest
    rw [hboot] at hrequest
    have hahead : s.boot.Ahead i := by
      rw [hrequest]
      exact le_refl i
    have hi := hne i (h.ahead i hahead)
    rw [hinterrupts i hi, hbhs i hi]
    exact h.flagged i hrequest
  · intro i hi
    by_cases hij : i = j
    · rw [hij]
      exact hline
    · rw [hlive'] at hi
      obtain ⟨hth, hbh, hlow, hnonneg⟩ := h.line i hi
      constructor
      · rwa [hinterrupts i hij, hboot, hhandler i hij, hdelivered i hij]
      · rwa [hbhs i hij, hqueued i hij, hhandler i hij, hdelivered i hij]
      · rwa [hinterrupts i hij]
      · rwa [hbhs i hij]

theorem Inv.live_of_handler (h : Inv s) {i : ℕ} (hpc : s.handler i ≠ .idle) :
    s.live i = true := by
  by_contra hdead
  exact hpc (h.dead i (by simpa using hdead)).2.1

theorem Inv.live_of_queued (h : Inv s) {i : ℕ} (hmem : i ∈ s.queued) : s.live i = true := by
  by_contra hdead
  exact (h.dead i (by simpa using hdead)).2.2 hmem

/-! ## Steps of `get_irqs` -/

/-- A line keeps its account while `get_irqs` goes on with others. -/
theorem Line.boot {i : ℕ} (h : s.Line i) (hlag : s'.boot.lag i = s.boot.lag i)
    (hinterrupts : s'.interrupts i = s.interrupts i) (hbhs : s'.bhs i = s.bhs i)
    (hhandler : s'.handler = s.handler) (hqueued : s'.queued = s.queued)
    (hdelivered : s'.delivered = s.delivered) : s'.Line i := by
  obtain ⟨hth, hbh, hlow, hnonneg⟩ := h
  constructor
  · rwa [hinterrupts, hlag, hhandler, hdelivered]
  · rwa [hbhs, hqueued, hhandler, hdelivered]
  · rwa [hinterrupts]
  · rwa [hbhs]

theorem flag_inv (hi : Inv s) (h : step cfg s .flag = .ok s') : Inv s' := by
  simp only [step] at h
  split at h
  · next irq hboot =>
      have hdead : ∀ i, irq ≤ i → s.live i = false := by
        simpa only [hboot, GetPc.Ahead] using hi.ahead
      have hlag : ∀ i, s.boot.lag i = 0 := fun i => by rw [hboot]; rfl
      split at h
      · cases h
        refine ⟨hdead, hi.dead, ?_, fun i hlive => ?_⟩
        · rintro i ⟨⟩
          exact ⟨Function.update_self .., Function.update_self ..⟩
        · have hne : i ≠ irq := by
            rintro rfl
            rw [hdead i le_rfl] at hlive
            cases hlive
          exact (hi.line i hlive).boot (hlag i).symm (Function.update_of_ne hne _ _)
            (Function.update_of_ne hne _ _) rfl rfl rfl
      · cases h
        exact ⟨nofun, hi.dead, nofun, fun i hlive =>
          (hi.line i hlive).boot (hlag i).symm rfl rfl rfl rfl rfl⟩
  · cases h

theorem request_inv (hi : Inv s) (h : step cfg s .request = .ok s') : Inv s' := by
  simp only [step] at h
  split at h
  · next irq hboot =>
      have hdead : ∀ i, irq ≤ i → s.live i = false := by
        simpa only [hboot, GetPc.Ahead] using hi.ahead
      have hlag : ∀ i, s.boot.lag i = 0 := fun i => by rw [hboot]; rfl
      split at h
      · cases h
        refine ⟨fun i hlt => ?_, fun i hlive => ?_, nofun, fun i hlive => ?_⟩
        · have hlt : irq < i := hlt
          simp only [Function.update_of_ne hlt.ne']
          exact hdead i hlt.le
        · by_cases hne : i = irq
          · subst hne
            simp at hlive
          · simp only [Function.update_of_ne hne] at hlive
            exact hi.dead i hlive
        · by_cases hne : i = irq
          · -- the line starts with nothing delivered and the flag in its counter
            subst hne
            obtain ⟨hdelivered, hidle, hqueued⟩ := hi.dead i (hdead i le_rfl)
            obtain ⟨hflag, hzero⟩ := hi.flagged i hboot
            have hcount : s.queued.count i = 0 := List.count_eq_zero.mpr hqueued
            constructor <;> simp [hflag, hzero, hcount, hidle, hdelivered, GetPc.lag]
          · simp only [Function.update_of_ne hne] at hlive
            have hzero : (GetPc.zero irq).lag i = 0 := if_neg fun heq => hne heq.symm
            exact (hi.line i hlive).boot (hzero.trans (hlag i).symm) rfl rfl rfl rfl rfl
      · cases h
        exact ⟨fun i hle => hdead i (Nat.le_of_succ_le hle), hi.dead, nofun, fun i hlive =>
          (hi.line i hlive).boot (hlag i).symm rfl rfl rfl rfl rfl⟩
  · cases h

theorem zero_inv (hi : Inv s) (hC : ∀ i, s.boot = .zero i → s.interrupts i = -1)
    (h : step cfg s .zero = .ok s') : Inv s' := by
  simp only [step] at h
  split at h
  · next irq hboot =>
      have hflag := hC irq hboot
      cases h
      refine ⟨fun i hle => ?_, hi.dead, nofun, fun i hlive => ?_⟩
      · apply hi.ahead
        rw [hboot]
        exact Nat.lt_of_succ_le hle
      · by_cases hne : i = irq
        · subst hne
          obtain ⟨hth, hbh, hlow, hnonneg⟩ := hi.line i hlive
          simp only [hboot, GetPc.lag, hflag, if_true] at hth
          refine ⟨?_, hbh, by simp, hnonneg⟩
          simp only [Function.update_self, GetPc.lag]
          omega
        · have hlag : s.boot.lag i = 0 := by
            rw [hboot]
            exact if_neg fun heq => hne heq.symm
          exact (hi.line i hlive).boot hlag.symm (Function.update_of_ne hne _ _) rfl rfl rfl rfl
  · cases h

/-! ## Steps of one line -/

theorem arrive_inv (hi : Inv s) {i : ℕ} (h : step cfg s (.arrive i) = .ok s') : Inv s' := by
  simp only [step] at h
  split at h
  · next hpc hlive =>
      obtain ⟨hth, hbh, hlow, hnonneg⟩ := hi.line i hlive
      simp only [hpc, IrqPc.uncounted, IrqPc.unscheduled] at hth hbh
      cases h
      apply hi.of_line hlive
      · constructor <;> intros <;> simp [goto, *]
      · constructor
        · simp only [goto, Function.update_self, IrqPc.uncounted]
          omega
        · simp only [goto, Function.update_self, IrqPc.unscheduled]
          omega
        · exact hlow
        · exact hnonneg
  · cases h

theorem count_inv (hi : Inv s) {i : ℕ} (hroom : s.interrupts i < INT_MAX)
    (h : step cfg s (.count i) = .ok s') : Inv s' := by
  simp only [step] at h
  split at h
  · next hpc =>
      have hlive := hi.live_of_handler (i := i) (by simp [hpc])
      obtain ⟨hth, hbh, hlow, hnonneg⟩ := hi.line i hlive
      simp only [hpc, IrqPc.uncounted, IrqPc.unscheduled] at hth hbh
      cases h
      apply hi.of_line hlive
      · constructor <;> intros <;> simp [goto, *]
      · constructor
        · simp only [goto, Function.update_self, atomicInc_of_flag hlow hroom, IrqPc.uncounted]
          omega
        · simp only [goto, Function.update_self, IrqPc.unscheduled]
          omega
        · simp only [Function.update_self, atomicInc_of_flag hlow hroom]
          omega
        · exact hnonneg
  · cases h

theorem schedule_inv (hi : Inv s) {i : ℕ} (h : step cfg s (.schedule i) = .ok s') :
    Inv s' := by
  simp only [step] at h
  split at h
  · next hpc =>
      have hlive := hi.live_of_handler (i := i) (by simp [hpc])
      obtain ⟨hth, hbh, hlow, hnonneg⟩ := hi.line i hlive
      simp only [hpc, IrqPc.uncounted, IrqPc.unscheduled] at hth hbh
      cases h
      apply hi.of_line hlive
      · refine ⟨rfl, rfl, fun _ _ => rfl, fun _ _ => rfl, ?_, ?_, fun _ _ => rfl⟩
        · intro k hk
          exact Function.update_of_ne hk _ _
        · intro k hk
          exact List.count_cons_of_ne hk.symm
      · constructor
        · simp only [goto, Function.update_self, IrqPc.uncounted]
          omega
        · simp only [goto, Function.update_self, IrqPc.unscheduled, List.count_cons_self]
          push_cast
          omega
        · exact hlow
        · exact hnonneg
  · cases h

theorem leave_inv (hi : Inv s) {i : ℕ} (h : step cfg s (.leave i) = .ok s') : Inv s' := by
  simp only [step] at h
  split at h
  · next hpc =>
      have hlive := hi.live_of_handler (i := i) (by simp [hpc])
      obtain ⟨hth, hbh, hlow, hnonneg⟩ := hi.line i hlive
      simp only [hpc, IrqPc.uncounted, IrqPc.unscheduled] at hth hbh
      cases h
      apply hi.of_line hlive
      · constructor <;> intros <;> simp [goto, *]
      · constructor
        · simpa only [goto, Function.update_self, IrqPc.uncounted] using hth
        · simpa only [goto, Function.update_self, IrqPc.unscheduled] using hbh
        · exact hlow
        · exact hnonneg
  · cases h

theorem run_inv (hi : Inv s) {i : ℕ} (hroom : s.bhs i < INT_MAX)
    (h : step cfg s (.run i) = .ok s') : Inv s' := by
  simp only [step] at h
  split at h
  · next hmem =>
      have hlive := hi.live_of_queued hmem
      obtain ⟨hth, hbh, hlow, hnonneg⟩ := hi.line i hlive
      have hsome : 0 < s.queued.count i := List.count_pos_iff.mpr hmem
      cases h
      apply hi.of_line hlive
      · refine ⟨rfl, rfl, fun _ _ => rfl, ?_, fun _ _ => rfl, ?_, fun _ _ => rfl⟩
        · intro k hk
          exact Function.update_of_ne hk _ _
        · intro k hk
          exact List.count_erase_of_ne hk
      · have hinc := atomicInc_of_lt hnonneg hroom
        constructor
        · exact hth
        · simp only [Function.update_self, hinc, List.count_erase_self]
          omega
        · exact hlow
        · simp only [Function.update_self, hinc]
          omega
  · cases h

/-! ## All steps -/

theorem step_inv (hi : Inv s) (hC : FlagIntact s e) (h : step cfg s e = .ok s') : Inv s' := by
  cases e with
  | flag => exact flag_inv hi h
  | request => exact request_inv hi h
  | zero => exact zero_inv hi (fun i => hC.1 i rfl) h
  | arrive i => exact arrive_inv hi h
  | count i => exact count_inv hi (hC.2.1 i rfl) h
  | schedule i => exact schedule_inv hi h
  | leave i => exact leave_inv hi h
  | run i => exact run_inv hi (hC.2.2 i rfl) h
  | free i =>
      simp only [step] at h
      split at h
      · cases h
        exact ⟨hi.ahead, hi.dead, hi.flagged, fun j hlive =>
          ⟨(hi.line j hlive).th, (hi.line j hlive).bh, (hi.line j hlive).low,
            (hi.line j hlive).nonneg⟩⟩
      · cases h

/-- In every interleaving in which `get_irqs` finds its flags intact, the counters of
every registered line come out even, and right, whenever all is quiet. -/
theorem settles_of_intact (cfg : Config) (interrupts bhs : ℕ → ℤ) (es : List Event)
    (hC : Runs.Along (step cfg) FlagIntact (loaded interrupts bhs) es) :
    Runs.Always (step cfg) Settles (loaded interrupts bhs) es := by
  apply Runs.always_of_along (I := Inv) ?_ ?_ (loaded_inv interrupts bhs) hC
  · intro s hi
    exact hi.settles
  · intro s e s' hi hC h
    exact step_inv hi hC h

def oneLine : Config := ⟨⟨1, fun _ => true⟩, by decide⟩

/-- The first interrupt comes after `get_irqs` is done with its line. -/
def lateInterrupt : List Event :=
  [.flag, .request, .zero, .flag, .arrive 0, .count 0, .schedule 0, .leave 0, .run 0, .free 0]

theorem lateInterrupt_settles :
    Runs.Always (step oneLine) Settles (loaded (fun _ => 0) fun _ => 0) lateInterrupt := by
  apply settles_of_intact oneLine _ _ lateInterrupt
  iterate 2
    apply Runs.along_cons_of rfl
    · exact ⟨nofun, nofun, nofun⟩
  apply Runs.along_cons_of rfl
  · refine ⟨?_, nofun, nofun⟩
    rintro i - ⟨⟩
    rfl
  iterate 2
    apply Runs.along_cons_of rfl
    · exact ⟨nofun, nofun, nofun⟩
  apply Runs.along_cons_of rfl
  · refine ⟨nofun, ?_, nofun⟩
    rintro i ⟨⟩
    decide
  iterate 2
    apply Runs.along_cons_of rfl
    · exact ⟨nofun, nofun, nofun⟩
  apply Runs.along_cons_of rfl
  · refine ⟨nofun, nofun, ?_⟩
    rintro i ⟨⟩
    decide
  apply Runs.along_cons_of rfl
  · exact ⟨nofun, nofun, nofun⟩
  trivial

/-- The first interrupt comes between `request_irq` and the 0, which wipes it out. -/
theorem early_interrupt_lost :
    ∃ s, Runs.exec (step oneLine) (loaded (fun _ => 0) fun _ => 0)
        [.flag, .request, .arrive 0, .count 0, .schedule 0, .leave 0, .zero, .flag, .run 0,
          .free 0] = .ok s ∧
      s.Quiet ∧ s.live 0 = true ∧ s.interrupts 0 = 0 ∧ s.bhs 0 = 1 ∧ s.delivered 0 = 1 ∧
      ¬ Runs.Always (step oneLine) Settles (loaded (fun _ => 0) fun _ => 0)
        [.flag, .request, .arrive 0, .count 0, .schedule 0, .leave 0, .zero, .flag, .run 0,
          .free 0] := by
  have hquiet : ∀ i, Function.update (Function.update (Function.update (Function.update
      (fun _ => IrqPc.idle) 0 .allocated) 0 .counted) 0 .scheduled) 0 .idle i = IrqPc.idle := by
    intro i
    by_cases hi : i = 0 <;> simp [hi]
  refine ⟨_, rfl, ⟨rfl, hquiet, rfl, rfl⟩, rfl, rfl, rfl, rfl, ?_⟩
  apply Runs.not_always_of_exec rfl
  intro hsettles
  exact absurd (hsettles ⟨rfl, hquiet, rfl, rfl⟩ 0 rfl).1 (by decide)

end State

end LddSamples.Interrupts.AllDynamic

import LddSamples.Kernel.Basic
import LddSamples.Library.Runs

/-!
# lab9_uio: events that are counted, taken and reported

The handler counts events in `nevents`. A read samples the counter, subtracts the sample
in a second step, and reports it by a user copy, which may fail. The counter is set to
zero when the handler is already live.
-/

namespace LddSamples.Interrupts.Uio

open Kernel CArith

/-- Where `my_init` stands: before `request_irq`, before `atomic_set(&nevents, 0)`, and
after the device has been registered. -/
inductive BootPc
  | request
  | zero
  | ready

/-- Where the handler stands: `counted` is before its wakeup. -/
inductive IrqPc
  | idle
  | counted

/-- Where a call of `mycdrv_read` stands: at the test of its wait, asleep in it, after
it, and then with its sample before and after the subtraction. -/
inductive ReadPc
  | waiting
  | asleep
  | passed
  | unsignalled
  | sampled (nev : ℤ)
  | subtracted (nev : ℤ)
  | out
  deriving DecidableEq

def ReadPc.wake : ReadPc → ReadPc
  | .asleep => .waiting
  | pc => pc

/-- `reads` holds all the calls that have been made. `reports` is what the successful
ones have copied to their users, and `delivered` counts the interrupts, for the
statements. -/
structure State where
  nevents : ℤ
  boot : BootPc
  handler : IrqPc
  reads : List ReadPc
  reports : List ℤ
  delivered : ℕ

inductive Event
  | request
  | zero
  | arrive
  | wake
  | call
  | test (n : ℕ)
  | interrupt (n : ℕ)
  | check (n : ℕ) (signalled : Bool)
  | sample (n : ℕ)
  | subtract (n : ℕ)
  | copy (n : ℕ) (succeeds : Bool)

namespace State

def initial : State := ⟨0, .request, .idle, [], [], 0⟩

def goto (s : State) (n : ℕ) (pc : ReadPc) : State := { s with reads := s.reads.set n pc }

/-- A signal ends a sleep, and the test after it. The wait does not see a signal when its
condition holds; `check` is the call's own test of `signal_pending`. -/
def step (s : State) : Event → Except Unit State
  | .request =>
      match s.boot with
      | .request => .ok { s with boot := .zero }
      | _ => .error ()
  | .zero =>
      match s.boot with
      | .zero => .ok { s with nevents := 0, boot := .ready }
      | _ => .error ()
  | .arrive =>
      match s.boot, s.handler with
      | .request, _ => .error ()
      | _, .counted => .error ()
      | _, .idle => .ok { s with
          nevents := atomicInc s.nevents
          handler := .counted
          delivered := s.delivered + 1 }
  | .wake =>
      match s.handler with
      | .counted => .ok { s with handler := .idle, reads := s.reads.map ReadPc.wake }
      | .idle => .error ()
  | .call =>
      match s.boot with
      | .ready => .ok { s with reads := s.reads ++ [.waiting] }
      | _ => .error ()
  | .test n =>
      match s.reads[n]? with
      | some .waiting => .ok (s.goto n (if 0 < s.nevents then .passed else .asleep))
      | _ => .error ()
  | .interrupt n =>
      match s.reads[n]? with
      | some .asleep => .ok (s.goto n .out)
      | _ => .error ()
  | .check n signalled =>
      match s.reads[n]? with
      | some .passed => .ok (s.goto n (if signalled then .out else .unsignalled))
      | _ => .error ()
  | .sample n =>
      match s.reads[n]? with
      | some .unsignalled => .ok (s.goto n (.sampled s.nevents))
      | _ => .error ()
  | .subtract n =>
      match s.reads[n]? with
      | some (.sampled nev) =>
          .ok { s.goto n (.subtracted nev) with nevents := toInt32 (s.nevents - nev) }
      | _ => .error ()
  | .copy n succeeds =>
      match s.reads[n]? with
      | some (.subtracted nev) =>
          .ok { s.goto n .out with
            reports := if succeeds then s.reports ++ [nev] else s.reports }
      | _ => .error ()

/-- No event is owed, and when no read is in progress every event has been reported or
is still counted. -/
def Conserved (s : State) : Prop :=
  0 ≤ s.nevents ∧ ((∀ pc ∈ s.reads, pc = .out) → s.reports.sum + s.nevents = s.delivered)

/-- `my_init` finds no event to wipe out, no event is counted beyond the largest `int`, a
read subtracts events that are still there, and it has none to report when its copy
fails. -/
def EventsKept (s : State) : Event → Prop
  | .zero => s.boot = .zero → s.nevents = 0
  | .arrive => s.boot ≠ .request → s.handler = .idle → s.nevents < INT_MAX
  | .subtract n => ∀ nev, s.reads[n]? = some (.sampled nev) → nev ≤ s.nevents
  | .copy n succeeds =>
      ∀ nev, s.reads[n]? = some (.subtracted nev) → succeeds = false → nev = 0
  | _ => True

end State

/-- What a read has taken and not yet reported. -/
def ReadPc.taken : ReadPc → ℤ
  | .subtracted nev => nev
  | _ => 0

@[simp] theorem ReadPc.taken_wake (pc : ReadPc) : pc.wake.taken = pc.taken := by cases pc <;> rfl

theorem sum_map_set {f : ReadPc → ℤ} {reads : List ReadPc} {n : ℕ} {pc : ReadPc}
    (h : reads[n]? = some pc) (pc' : ReadPc) :
    ((reads.set n pc').map f).sum = (reads.map f).sum - f pc + f pc' := by
  induction reads generalizing n with
  | nil => simp at h
  | cons first reads ih =>
      cases n with
      | zero =>
          obtain rfl : first = pc := by simpa using h
          simp only [List.set_cons_zero, List.map_cons, List.sum_cons]
          ring
      | succ n =>
          have hrest := ih (by simpa using h)
          simp only [List.set_cons_succ, List.map_cons, List.sum_cons, hrest]
          ring

/-- The steps that a read has at most before it. -/
def ReadPc.left : ReadPc → ℕ
  | .waiting => 2
  | .asleep => 1
  | .passed => 1
  | .unsignalled => 3
  | .sampled _ => 2
  | .subtracted _ => 1
  | .out => 0

namespace State

variable {s s' : State} {e : Event}

/-- What all events that have been counted amount to, less the interrupts. -/
def balance (s : State) : ℤ :=
  s.reports.sum + s.nevents + (s.reads.map ReadPc.taken).sum - s.delivered

structure Ranges (s : State) : Prop where
  nonneg : 0 ≤ s.nevents
  le : s.nevents ≤ INT_MAX
  samples : ∀ nev, .sampled nev ∈ s.reads → 0 ≤ nev ∧ nev ≤ INT_MAX

theorem initial_ranges : Ranges initial :=
  ⟨le_refl _, by decide, by simp [initial]⟩

theorem Ranges.goto (h : Ranges s) (n : ℕ) {pc : ReadPc}
    (hpc : ∀ nev, pc = .sampled nev → 0 ≤ nev ∧ nev ≤ INT_MAX) : Ranges (s.goto n pc) where
  nonneg := h.nonneg
  le := h.le
  samples nev hmem := by
    rcases List.mem_or_eq_of_mem_set hmem with hmem | heq
    · exact h.samples nev hmem
    · exact hpc nev heq.symm

theorem balance_goto {n : ℕ} {pc : ReadPc} (h : s.reads[n]? = some pc) (pc' : ReadPc) :
    (s.goto n pc').balance = s.balance - pc.taken + pc'.taken := by
  simp only [balance, goto, sum_map_set h]
  ring

/-- A read that goes on without taking or reporting an event. -/
theorem Ranges.moves (h : Ranges s) {n : ℕ} {pc pc' : ReadPc} (hpc : s.reads[n]? = some pc)
    (htaken : pc'.taken = pc.taken) (hsample : ∀ nev, pc' = .sampled nev → nev = s.nevents) :
    Ranges (s.goto n pc') ∧ (s.goto n pc').balance = s.balance := by
  constructor
  · apply h.goto
    intro nev hnev
    rw [hsample nev hnev]
    exact ⟨h.nonneg, h.le⟩
  · rw [balance_goto hpc, htaken]
    ring

theorem arrive_balance (hs : Ranges s)
    (hC : s.boot ≠ .request → s.handler = .idle → s.nevents < INT_MAX)
    (h : step s .arrive = .ok s') : Ranges s' ∧ s'.balance = s.balance := by
  simp only [step] at h
  split at h
  · cases h
  · cases h
  · next hhandler hboot =>
      have hroom := hC hboot hhandler
      have hinc := atomicInc_of_lt hs.nonneg hroom
      have hnonneg := hs.nonneg
      cases h
      refine ⟨⟨?_, ?_, hs.samples⟩, ?_⟩
      · simp only [hinc]
        omega
      · simp only [hinc]
        omega
      · simp only [balance, hinc]
        push_cast
        ring

/-- A wakeup moves reads, and none of them has taken anything. -/
theorem wake_balance (hs : Ranges s) (h : step s .wake = .ok s') :
    Ranges s' ∧ s'.balance = s.balance := by
  simp only [step] at h
  split at h
  · cases h
    refine ⟨⟨hs.nonneg, hs.le, fun nev hmem => ?_⟩, ?_⟩
    · obtain ⟨pc, hpc, hwake⟩ := List.mem_map.mp hmem
      cases pc with
      | sampled nev' =>
          cases hwake
          exact hs.samples _ hpc
      | _ => cases hwake
    · have hsame : ReadPc.taken ∘ ReadPc.wake = ReadPc.taken := by
        funext pc
        exact pc.taken_wake
      simp only [balance, List.map_map, hsame]
  · cases h

/-- What is subtracted is taken. -/
theorem subtract_balance (hs : Ranges s) {n : ℕ}
    (hC : ∀ nev, s.reads[n]? = some (.sampled nev) → nev ≤ s.nevents)
    (h : step s (.subtract n) = .ok s') : Ranges s' ∧ s'.balance = s.balance := by
  simp only [step] at h
  split at h
  · next nev hpc =>
      have hleft := hC nev hpc
      obtain ⟨hlow, -⟩ := hs.samples nev (List.mem_of_getElem? hpc)
      have hle := hs.le
      have hsub : toInt32 (s.nevents - nev) = s.nevents - nev :=
        toInt32_of_mem (by omega) (by omega)
      have hmoved : Ranges (s.goto n (.subtracted nev)) := hs.goto n nofun
      cases h
      rw [hsub]
      refine ⟨⟨?_, ?_, hmoved.samples⟩, ?_⟩
      · simp only
        omega
      · simp only
        omega
      · have hgoto := balance_goto hpc (.subtracted nev)
        simp only [balance, goto, ReadPc.taken] at hgoto ⊢
        omega
  · cases h

/-- What was taken is reported. -/
theorem copy_balance (hs : Ranges s) {n : ℕ} {succeeds : Bool}
    (hC : ∀ nev, s.reads[n]? = some (.subtracted nev) → succeeds = false → nev = 0)
    (h : step s (.copy n succeeds) = .ok s') : Ranges s' ∧ s'.balance = s.balance := by
  simp only [step] at h
  split at h
  · next nev hpc =>
      have hnone := hC nev hpc
      have hmoved : Ranges (s.goto n .out) := hs.goto n nofun
      cases h
      refine ⟨⟨hs.nonneg, hs.le, hmoved.samples⟩, ?_⟩
      have hgoto := balance_goto hpc .out
      simp only [balance, goto, ReadPc.taken] at hgoto ⊢
      cases succeeds with
      | true =>
          simp only [if_true, List.sum_append, List.sum_singleton]
          omega
      | false =>
          have hzero := hnone rfl
          simp only [Bool.false_eq_true, if_false]
          omega
  · cases h

/-- A step that keeps the events keeps the balance. -/
theorem step_balance (hs : Ranges s) (hC : EventsKept s e) (h : step s e = .ok s') :
    Ranges s' ∧ s'.balance = s.balance := by
  cases e with
  | request =>
      simp only [step] at h
      split at h
      · cases h
        exact ⟨⟨hs.nonneg, hs.le, hs.samples⟩, rfl⟩
      · cases h
  | zero =>
      simp only [step] at h
      split at h
      · next hboot =>
          have hnone : s.nevents = 0 := hC hboot
          cases h
          exact ⟨⟨le_refl _, hs.nonneg.trans hs.le, hs.samples⟩, by simp [balance, hnone]⟩
      · cases h
  | arrive => exact arrive_balance hs hC h
  | wake => exact wake_balance hs h
  | call =>
      simp only [step] at h
      split at h
      · cases h
        refine ⟨⟨hs.nonneg, hs.le, fun nev hmem => ?_⟩, by simp [balance, ReadPc.taken]⟩
        have hold : .sampled nev ∈ s.reads := by simpa using hmem
        exact hs.samples nev hold
      · cases h
  | test n =>
      simp only [step] at h
      split at h
      · next hpc =>
          cases h
          split
          · exact hs.moves hpc rfl nofun
          · exact hs.moves hpc rfl nofun
      · cases h
  | interrupt n =>
      simp only [step] at h
      split at h
      · next hpc =>
          cases h
          exact hs.moves hpc rfl nofun
      · cases h
  | check n signalled =>
      simp only [step] at h
      split at h
      · next hpc =>
          cases h
          split
          · exact hs.moves hpc rfl nofun
          · exact hs.moves hpc rfl nofun
      · cases h
  | sample n =>
      simp only [step] at h
      split at h
      · next hpc =>
          cases h
          refine hs.moves hpc rfl ?_
          rintro nev ⟨⟩
          rfl
      · cases h
  | subtract n => exact subtract_balance hs hC h
  | copy n succeeds => exact copy_balance hs hC h

theorem taken_of_out {reads : List ReadPc} (h : ∀ pc ∈ reads, pc = .out) :
    (reads.map ReadPc.taken).sum = 0 := by
  apply List.sum_eq_zero
  intro x hx
  obtain ⟨pc, hpc, rfl⟩ := List.mem_map.mp hx
  rw [h pc hpc]
  rfl

theorem conserved_of_balance (hs : Ranges s) (hbalance : s.balance = 0) : Conserved s := by
  refine ⟨hs.nonneg, fun hout => ?_⟩
  rw [balance, taken_of_out hout] at hbalance
  omega

theorem not_conserved_of_balance (hbalance : s.balance ≠ 0) (hout : ∀ pc ∈ s.reads, pc = .out) :
    ¬ Conserved s := by
  rintro ⟨-, hsum⟩
  have hsum := hsum hout
  rw [balance, taken_of_out hout] at hbalance
  omega

theorem not_conserved_of_neg (h : s.nevents < 0) : ¬ Conserved s :=
  fun hconserved => absurd hconserved.1 (not_le.mpr h)

theorem not_always_cons {P : State → Prop} {fs : List Event} (h : step s e = .ok s')
    (hfs : ¬ Runs.Always step P s' fs) : ¬ Runs.Always step P s (e :: fs) :=
  fun hall => hfs (hall.2 s' h)

/-- A subtraction of more than there is leaves the counter negative. -/
theorem overdrawn (hs : Ranges s) {n : ℕ} {nev : ℤ} (hn : s.reads[n]? = some (.sampled nev))
    (hlt : s.nevents < nev) : ¬ Runs.Always step Conserved s [.subtract n] := by
  have hmax := INT_MAX_eq
  have hnonneg := hs.nonneg
  obtain ⟨-, hhigh⟩ := hs.samples nev (List.mem_of_getElem? hn)
  have hsub : toInt32 (s.nevents - nev) = s.nevents - nev :=
    toInt32_of_mem (by omega) (by omega)
  have hstep : step s (.subtract n) =
      .ok { s.goto n (.subtracted nev) with nevents := s.nevents - nev } := by
    simp only [step, hn, hsub]
  have hneg : ¬ Conserved { s.goto n (.subtracted nev) with nevents := s.nevents - nev } := by
    apply not_conserved_of_neg
    simp only
    omega
  exact not_always_cons hstep hneg

/-! ## What becomes of an event that is lost -/

theorem exists_left (reads : List ReadPc) :
    ∃ k : ℕ, (reads.map fun pc => (pc.left : ℤ)).sum = k := by
  refine ⟨(reads.map ReadPc.left).sum, ?_⟩
  rw [Nat.cast_list_sum, List.map_map]
  rfl

/-- The next step of a read that is told of a signal as soon as possible. -/
def next (n : ℕ) : ReadPc → Option Event
  | .waiting => some (.test n)
  | .asleep => some (.interrupt n)
  | .passed => some (.check n true)
  | .unsignalled => some (.sample n)
  | .sampled _ => some (.subtract n)
  | .subtracted _ => some (.copy n true)
  | .out => none

/-- A read can always go on, and comes closer to its end. -/
theorem next_progress {n : ℕ} {pc : ReadPc} (hpc : s.reads[n]? = some pc) (hout : pc ≠ .out) :
    ∃ e s' pc', next n pc = some e ∧ step s e = .ok s' ∧ s'.reads = s.reads.set n pc' ∧
      pc'.left < pc.left := by
  cases pc with
  | waiting =>
      refine ⟨.test n, _, _, rfl, by simp only [step, hpc]; rfl, rfl, ?_⟩
      split <;> decide
  | asleep => exact ⟨.interrupt n, _, _, rfl, by simp only [step, hpc]; rfl, rfl, by decide⟩
  | passed => exact ⟨.check n true, _, _, rfl, by simp only [step, hpc]; rfl, rfl, by decide⟩
  | unsignalled =>
      exact ⟨.sample n, _, .sampled s.nevents, rfl, by simp only [step, hpc]; rfl, rfl, by
        simp [ReadPc.left]⟩
  | sampled nev =>
      exact ⟨.subtract n, _, .subtracted nev, rfl, by simp only [step, hpc]; rfl, rfl, by
        simp [ReadPc.left]⟩
  | subtracted nev =>
      exact ⟨.copy n true, _, .out, rfl, by simp only [step, hpc]; rfl, rfl, by
        simp [ReadPc.left]⟩
  | out => exact absurd rfl hout

/-- An event that is missing stays missing: once all reads have come to their end the
sum is wrong, if the counter has not become negative before. -/
theorem lost_for_good (k : ℕ) {s : State} (hk : (s.reads.map fun pc => (pc.left : ℤ)).sum = k)
    (hs : Ranges s) (hbalance : s.balance ≠ 0) : ∃ fs, ¬ Runs.Always step Conserved s fs := by
  induction k using Nat.strong_induction_on generalizing s with
  | _ k ih =>
      by_cases hout : ∀ pc ∈ s.reads, pc = .out
      · exact ⟨[], not_conserved_of_balance hbalance hout⟩
      push Not at hout
      obtain ⟨pc, hmem, hpc⟩ := hout
      obtain ⟨n, hn⟩ := List.mem_iff_getElem?.mp hmem
      obtain ⟨e, s', pc', hnext, hstep, hreads, hless⟩ := next_progress hn hpc
      by_cases hC : EventsKept s e
      · obtain ⟨hs', hsame⟩ := step_balance hs hC hstep
        have hsum := sum_map_set (f := fun pc => (pc.left : ℤ)) hn pc'
        rw [← hreads] at hsum
        obtain ⟨j, hj⟩ := exists_left s'.reads
        obtain ⟨fs, hfs⟩ := ih j (by omega) hj hs' (hsame ▸ hbalance)
        exact ⟨e :: fs, not_always_cons hstep hfs⟩
      · -- only a subtraction can fail to keep the events, and then takes more than there are
        cases pc with
        | sampled nev =>
            cases hnext
            simp only [EventsKept, hn, Option.some.injEq, ReadPc.sampled.injEq] at hC
            push Not at hC
            obtain ⟨_, rfl, hlt⟩ := hC
            exact ⟨[.subtract n], overdrawn hs hn hlt⟩
        | subtracted nev =>
            cases hnext
            exact absurd (fun _ _ h => Bool.noConfusion h) hC
        | out => exact absurd rfl hpc
        | _ =>
            cases hnext
            exact absurd trivial hC

theorem lost_run (hs : Ranges s) (hbalance : s.balance ≠ 0) :
    ∃ fs, ¬ Runs.Always step Conserved s fs := by
  obtain ⟨k, hk⟩ := exists_left s.reads
  exact lost_for_good k hk hs hbalance

/-- A step that does not keep the events makes the counter negative, or loses events. -/
theorem not_kept_unbalances (hs : Ranges s) (hbalance : s.balance = 0) (hC : ¬ EventsKept s e) :
    ∃ fs, ¬ Runs.Always step Conserved s (e :: fs) := by
  cases e with
  | zero =>
      simp only [EventsKept] at hC
      push Not at hC
      obtain ⟨hboot, hsome⟩ := hC
      have hstep : step s .zero = .ok { s with nevents := 0, boot := .ready } := by
        simp only [step, hboot]
      have hlost : balance { s with nevents := 0, boot := .ready } ≠ 0 := by
        simp only [balance] at hbalance ⊢
        omega
      have hranges : Ranges { s with nevents := 0, boot := .ready } :=
        ⟨le_refl _, hs.nonneg.trans hs.le, hs.samples⟩
      obtain ⟨fs, hfs⟩ := lost_run hranges hlost
      exact ⟨fs, not_always_cons hstep hfs⟩
  | arrive =>
      simp only [EventsKept] at hC
      push Not at hC
      obtain ⟨hboot, hhandler, hfull⟩ := hC
      have hinc : atomicInc s.nevents = -2147483648 := by
        have hlast : s.nevents = INT_MAX := le_antisymm hs.le hfull
        rw [hlast]
        decide
      have hstep : step s .arrive = .ok { s with
          nevents := -2147483648
          handler := .counted
          delivered := s.delivered + 1 } := by
        cases hpc : s.boot with
        | request => exact absurd hpc hboot
        | zero => simp only [step, hpc, hhandler, hinc]
        | ready => simp only [step, hpc, hhandler, hinc]
      exact ⟨[], not_always_cons hstep (not_conserved_of_neg (by simp))⟩
  | subtract n =>
      simp only [EventsKept] at hC
      push Not at hC
      obtain ⟨nev, hn, hlt⟩ := hC
      exact ⟨[], overdrawn hs hn hlt⟩
  | copy n succeeds =>
      simp only [EventsKept] at hC
      push Not at hC
      obtain ⟨nev, hn, rfl, hsome⟩ := hC
      have hstep : step s (.copy n false) = .ok (s.goto n .out) := by
        simp only [step, hn, Bool.false_eq_true, if_false]
        rfl
      have hlost : (s.goto n .out).balance ≠ 0 := by
        rw [balance_goto hn]
        simp only [ReadPc.taken]
        omega
      have hranges : Ranges (s.goto n .out) := hs.goto n nofun
      obtain ⟨fs, hfs⟩ := lost_run hranges hlost
      exact ⟨fs, not_always_cons hstep hfs⟩
  | _ => exact absurd trivial hC

/-- Runs whose steps keep the events conserve them, and a run breaks at the first step that
does not. -/
theorem conserved_of_kept (es : List Event) :
    (Runs.Along step EventsKept initial es → Runs.Always step Conserved initial es) ∧
      (¬ Runs.Along step EventsKept initial es →
        Runs.Breaks step EventsKept Conserved initial es) := by
  apply Runs.always_or_breaks (I := fun s => Ranges s ∧ s.balance = 0)
  · rintro s ⟨hs, hbalance⟩
    exact conserved_of_balance hs hbalance
  · rintro s e s' ⟨hs, hbalance⟩ hC h
    obtain ⟨hs', hsame⟩ := step_balance hs hC h
    exact ⟨hs', hsame.trans hbalance⟩
  · rintro s e ⟨hs, hbalance⟩ hC
    exact not_kept_unbalances hs hbalance hC
  · exact ⟨initial_ranges, rfl⟩

/-- Two reads sample the same event, and both take it off. -/
theorem event_taken_twice :
    ∃ s, Runs.exec step initial
        [.request, .zero, .call, .call, .arrive, .wake, .test 0, .test 1, .check 0 false,
          .check 1 false, .sample 0, .sample 1, .subtract 0, .subtract 1, .copy 0 true,
          .copy 1 true] = .ok s ∧
      s.nevents = -1 ∧ s.reports = [1, 1] ∧ s.delivered = 1 ∧ ¬ Conserved s := by
  refine ⟨_, rfl, rfl, rfl, rfl, ?_⟩
  rintro ⟨howed, -⟩
  exact absurd howed (by decide)

/-- The copy of a read fails when the event has been taken off. -/
theorem event_not_reported :
    ∃ s, Runs.exec step initial
        [.request, .zero, .arrive, .wake, .call, .test 0, .check 0 false, .sample 0,
          .subtract 0, .copy 0 false] = .ok s ∧
      s.nevents = 0 ∧ s.reports = [] ∧ s.delivered = 1 ∧ ¬ Conserved s := by
  refine ⟨_, rfl, rfl, rfl, rfl, ?_⟩
  rintro ⟨-, hsum⟩
  exact absurd (hsum (by decide)) (by decide)

/-- The first interrupt comes before `my_init` sets the counter to zero. -/
theorem event_wiped_out :
    ∃ s, Runs.exec step initial [.request, .arrive, .zero] = .ok s ∧
      s.nevents = 0 ∧ s.reports = [] ∧ s.delivered = 1 ∧ ¬ Conserved s := by
  refine ⟨_, rfl, rfl, rfl, rfl, ?_⟩
  rintro ⟨-, hsum⟩
  exact absurd (hsum (by decide)) (by decide)

end State

end LddSamples.Interrupts.Uio

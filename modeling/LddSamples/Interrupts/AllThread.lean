import LddSamples.Kernel.Basic
import LddSamples.Library.Runs

/-!
# lab6_all_thread: all the lines and one thread

The handler of every line leaves its number in one shared slot and raises one shared
flag. `thr_fun` reads the slot at the top of its loop, clears the flag, and then waits
for it to be raised again. The handlers of different lines overlap.
-/

namespace LddSamples.Interrupts.AllThread

open Kernel CArith

/-- Where the handler of a line stands: `stored` is before `atomic_set(&cond, 1)`,
`raised` before `atomic_inc(&interrupts[irq])`, `counted` before the wakeup. -/
inductive IrqPc
  | idle
  | stored
  | raised
  | counted

/-- Where `thr_fun` stands. From `sampled` on it has a copy of the slot; `waiting` is
at the test of `wait_event_interruptible`, `passed` after it. -/
inductive ThreadPc
  | top
  | sampled (irq : ℕ)
  | waiting (irq : ℕ)
  | asleep (irq : ℕ)
  | passed (irq : ℕ)
  | crediting (irq : ℕ)
  | bottom
  | exited

/-- `irq` is the slot `my_data.irq`. For the statements `delivered` counts the interrupts of
each line, and `raiser` is the line whose handler has turned `cond` from 0 to 1 since it was
last cleared. -/
structure State where
  irq : ℕ
  cond : ℤ
  interrupts : ℕ → ℤ
  bhs : ℕ → ℤ
  shouldStop : Bool
  handler : ℕ → IrqPc
  thread : ThreadPc
  delivered : ℕ → ℕ
  raiser : Option ℕ

inductive Event
  | arrive (i : ℕ)
  | raise (i : ℕ)
  | count (i : ℕ)
  | wake (i : ℕ)
  | sample
  | clear
  | test
  | recheck
  | credit
  | loop
  | stop

/-- A wakeup sends a sleeping thread back to the test of its wait. -/
def ThreadPc.wake : ThreadPc → ThreadPc
  | .asleep irq => .waiting irq
  | pc => pc

/-- The line whose number the thread holds, after the flag has been cleared and before
it is tested for the last time. -/
def ThreadPc.pass : ThreadPc → Option ℕ
  | .waiting irq => some irq
  | .asleep irq => some irq
  | .passed irq => some irq
  | _ => none

namespace State

def initial : State :=
  ⟨0, 1, fun _ => 0, fun _ => 0, false, fun _ => .idle, .top, fun _ => 0, none⟩

def goto (s : State) (i : ℕ) (pc : IrqPc) : State :=
  { s with handler := Function.update s.handler i pc }

def step (s : State) : Event → Except Unit State
  | .arrive i =>
      match s.handler i with
      | .idle => .ok { s.goto i .stored with
          irq := i
          delivered := Function.update s.delivered i (s.delivered i + 1) }
      | _ => .error ()
  | .raise i =>
      match s.handler i with
      | .stored => .ok { s.goto i .raised with
          cond := 1
          raiser := if s.cond = 1 then s.raiser else some i }
      | _ => .error ()
  | .count i =>
      match s.handler i with
      | .raised => .ok { s.goto i .counted with
          interrupts := Function.update s.interrupts i (atomicInc (s.interrupts i)) }
      | _ => .error ()
  | .wake i =>
      match s.handler i with
      | .counted => .ok { s.goto i .idle with thread := s.thread.wake }
      | _ => .error ()
  | .sample =>
      match s.thread with
      | .top => .ok { s with thread := .sampled s.irq }
      | _ => .error ()
  | .clear =>
      match s.thread with
      | .sampled irq => .ok { s with thread := .waiting irq, cond := 0, raiser := none }
      | _ => .error ()
  | .test =>
      match s.thread with
      | .waiting irq =>
          .ok { s with
            thread := if s.shouldStop = true ∨ s.cond = 1 then .passed irq else .asleep irq }
      | _ => .error ()
  | .recheck =>
      match s.thread with
      | .passed irq => .ok { s with thread := if s.cond = 1 then .crediting irq else .bottom }
      | _ => .error ()
  | .credit =>
      match s.thread with
      | .crediting irq => .ok { s with
          bhs := Function.update s.bhs irq (atomicInc (s.bhs irq))
          thread := .bottom }
      | _ => .error ()
  | .loop =>
      match s.thread with
      | .bottom => .ok { s with thread := if s.shouldStop then .exited else .top }
      | _ => .error ()
  | .stop => .ok { s with shouldStop := true, thread := s.thread.wake }

/-- No line is credited with more bottom halves than it has raised interrupts. -/
def Credited (s : State) : Prop := ∀ i, s.bhs i ≤ s.delivered i

/-- The bottom half that the thread is about to count is for the line that raised the event. -/
def Attributed (s : State) : Prop := ∀ irq, s.thread = .crediting irq → s.raiser = some irq

/-- The handler that ends the wait of a pass is that of the line which the pass has
sampled. -/
def RaisesSampled (s : State) (e : Event) : Prop :=
  ∀ i irq, e = .raise i → s.handler i = .stored → s.thread.pass = some irq → s.cond ≠ 1 → i = irq

end State

/-- The bottom half that the thread is going to count for line `i`. -/
def ThreadPc.owed (cond : ℤ) (i : ℕ) : ThreadPc → ℤ
  | .crediting irq => if irq = i then 1 else 0
  | pc => if pc.pass = some i ∧ cond = 1 then 1 else 0

/-- The interrupt of a line that has not yet raised the flag. -/
def IrqPc.unraised : IrqPc → ℤ
  | .stored => 1
  | _ => 0

namespace State

variable {s s' : State} {e : Event}

structure Inv (s : State) : Prop where
  range : ∀ i, -2147483648 ≤ s.bhs i
  credit : ∀ i, s.bhs i + s.thread.owed s.cond i + (s.handler i).unraised ≤ s.delivered i

theorem inv_initial : Inv initial where
  range _ := by simp [initial]
  credit _ := by simp [initial, ThreadPc.owed, ThreadPc.pass, IrqPc.unraised]

/-- Once the flag is up, the line that the thread holds is the one that raised it. -/
structure Raised (s : State) : Prop where
  pass : ∀ irq, s.thread.pass = some irq → s.cond = 1 → s.raiser = some irq
  crediting : ∀ irq, s.thread = .crediting irq → s.cond = 1 ∧ s.raiser = some irq

theorem raised_initial : Raised initial where
  pass _ h := by simp [initial, ThreadPc.pass] at h
  crediting _ h := by simp [initial] at h

end State

theorem ThreadPc.owed_nonneg (cond : ℤ) (i : ℕ) (pc : ThreadPc) : 0 ≤ pc.owed cond i := by
  cases pc <;> simp only [owed] <;> split <;> simp

theorem IrqPc.unraised_nonneg (pc : IrqPc) : 0 ≤ pc.unraised := by cases pc <;> simp [unraised]

theorem ThreadPc.owed_wake (cond : ℤ) (i : ℕ) (pc : ThreadPc) :
    pc.wake.owed cond i = pc.owed cond i := by
  cases pc <;> rfl

theorem ThreadPc.pass_wake (pc : ThreadPc) : pc.wake.pass = pc.pass := by cases pc <;> rfl

theorem ThreadPc.crediting_of_wake {pc : ThreadPc} {irq : ℕ} (h : pc.wake = .crediting irq) :
    pc = .crediting irq := by
  cases pc <;> simp_all [wake]

/-- Raising the flag owes a bottom half to the line of the pass, if none is owed yet. -/
theorem ThreadPc.owed_raise (cond : ℤ) (i : ℕ) (pc : ThreadPc) :
    pc.owed 1 i = pc.owed cond i + if pc.pass = some i ∧ cond ≠ 1 then 1 else 0 := by
  by_cases hcond : cond = 1 <;> cases pc <;> simp [owed, pass, hcond]

theorem atomicInc_le {v : ℤ} (hlow : -2147483648 ≤ v) :
    atomicInc v ≤ v + 1 ∧ -2147483648 ≤ atomicInc v := by
  unfold atomicInc toInt32
  omega

namespace State

variable {s s' : State} {e : Event}

/-- What the steps do, with where they start. -/
inductive Does (s : State) : Event → State → Prop
  | arrive {i : ℕ} (h : s.handler i = .idle) : Does s (.arrive i) { s.goto i .stored with
      irq := i
      delivered := Function.update s.delivered i (s.delivered i + 1) }
  | raise {i : ℕ} (h : s.handler i = .stored) : Does s (.raise i) { s.goto i .raised with
      cond := 1
      raiser := if s.cond = 1 then s.raiser else some i }
  | count {i : ℕ} (h : s.handler i = .raised) : Does s (.count i) { s.goto i .counted with
      interrupts := Function.update s.interrupts i (atomicInc (s.interrupts i)) }
  | wake {i : ℕ} (h : s.handler i = .counted) :
      Does s (.wake i) { s.goto i .idle with thread := s.thread.wake }
  | sample (h : s.thread = .top) : Does s .sample { s with thread := .sampled s.irq }
  | clear {irq : ℕ} (h : s.thread = .sampled irq) :
      Does s .clear { s with thread := .waiting irq, cond := 0, raiser := none }
  | pass {irq : ℕ} (h : s.thread = .waiting irq) : Does s .test { s with thread := .passed irq }
  | sleep {irq : ℕ} (h : s.thread = .waiting irq) : Does s .test { s with thread := .asleep irq }
  | found {irq : ℕ} (h : s.thread = .passed irq) (hcond : s.cond = 1) :
      Does s .recheck { s with thread := .crediting irq }
  | nothing {irq : ℕ} (h : s.thread = .passed irq) (hcond : s.cond ≠ 1) :
      Does s .recheck { s with thread := .bottom }
  | credit {irq : ℕ} (h : s.thread = .crediting irq) : Does s .credit { s with
      bhs := Function.update s.bhs irq (atomicInc (s.bhs irq))
      thread := .bottom }
  | loop {pc : ThreadPc} (h : s.thread = .bottom) (hpc : pc = .top ∨ pc = .exited) :
      Does s .loop { s with thread := pc }
  | stop : Does s .stop { s with shouldStop := true, thread := s.thread.wake }

theorem step_does (h : step s e = .ok s') : Does s e s' := by
  cases e with
  | arrive i =>
      simp only [step] at h
      split at h
      · next hpc =>
          cases h
          exact .arrive hpc
      · cases h
  | raise i =>
      simp only [step] at h
      split at h
      · next hpc =>
          cases h
          exact .raise hpc
      · cases h
  | count i =>
      simp only [step] at h
      split at h
      · next hpc =>
          cases h
          exact .count hpc
      · cases h
  | wake i =>
      simp only [step] at h
      split at h
      · next hpc =>
          cases h
          exact .wake hpc
      · cases h
  | sample =>
      simp only [step] at h
      split at h
      · next hpc =>
          cases h
          exact .sample hpc
      · cases h
  | clear =>
      simp only [step] at h
      split at h
      · next irq hpc =>
          cases h
          exact .clear hpc
      · cases h
  | test =>
      simp only [step] at h
      split at h
      · next irq hpc =>
          cases h
          split
          · exact .pass hpc
          · exact .sleep hpc
      · cases h
  | recheck =>
      simp only [step] at h
      split at h
      · next irq hpc =>
          cases h
          split
          · next hcond => exact .found hpc hcond
          · next hcond => exact .nothing hpc hcond
      · cases h
  | credit =>
      simp only [step] at h
      split at h
      · next irq hpc =>
          cases h
          exact .credit hpc
      · cases h
  | loop =>
      simp only [step] at h
      split at h
      · next hpc =>
          cases h
          exact .loop hpc (by split <;> simp)
      · cases h
  | stop =>
      cases h
      exact .stop

theorem Inv.credited (h : Inv s) : Credited s := by
  intro i
  have hcredit := h.credit i
  have howed := ThreadPc.owed_nonneg s.cond i s.thread
  have hunraised := (s.handler i).unraised_nonneg
  omega

theorem Inv.wake (h : Inv s) {thread : ThreadPc}
    (hthread : ∀ i, thread.owed s.cond i ≤ s.thread.owed s.cond i) :
    ∀ i, s.bhs i + thread.owed s.cond i + (s.handler i).unraised ≤ s.delivered i := by
  intro i
  have hcredit := h.credit i
  have howed := hthread i
  omega

/-- A handler has to keep the account of its own line, and to owe nothing more to the
others. -/
theorem Inv.handle (h : Inv s) {i : ℕ} {pc : IrqPc} (hbhs : s'.bhs = s.bhs)
    (hhandler : s'.handler = Function.update s.handler i pc)
    (hdelivered : ∀ j, j ≠ i → s'.delivered j = s.delivered j)
    (howed : ∀ j, j ≠ i → s'.thread.owed s'.cond j ≤ s.thread.owed s.cond j)
    (hself : s.bhs i + s'.thread.owed s'.cond i + pc.unraised ≤ s'.delivered i) : Inv s' := by
  constructor
  · rw [hbhs]
    exact h.range
  · intro j
    rw [hbhs, hhandler]
    by_cases hj : j = i
    · subst hj
      rw [Function.update_self]
      exact hself
    · rw [Function.update_of_ne hj, hdelivered j hj]
      have hcredit := h.credit j
      have hle := howed j hj
      omega

/-- The interrupt that is no longer to raise the flag pays for the bottom half. -/
theorem raise_inv (hi : Inv s) {i : ℕ} (hpc : s.handler i = .stored)
    (hC : ∀ irq, s.thread.pass = some irq → s.cond ≠ 1 → i = irq) (raiser : Option ℕ) :
    Inv { s.goto i .raised with cond := 1, raiser := raiser } := by
  have hcredit := hi.credit i
  have howed := ThreadPc.owed_raise s.cond i s.thread
  simp only [hpc, IrqPc.unraised] at hcredit
  refine hi.handle rfl rfl (fun j _ => rfl) (fun j hj => ?_) ?_
  · have hnone : ¬ (s.thread.pass = some j ∧ s.cond ≠ 1) := by
      rintro ⟨hpass, hcond⟩
      exact hj (hC j hpass hcond).symm
    have howed := ThreadPc.owed_raise s.cond j s.thread
    rw [if_neg hnone] at howed
    simp only [goto]
    omega
  · simp only [goto, IrqPc.unraised]
    split at howed <;> omega

/-- The bottom half that is counted is the one that was owed. -/
theorem credit_inv (hi : Inv s) {irq : ℕ} (hpc : s.thread = .crediting irq) :
    Inv { s with
      bhs := Function.update s.bhs irq (atomicInc (s.bhs irq))
      thread := .bottom } := by
  obtain ⟨hle, hlow⟩ := atomicInc_le (hi.range irq)
  constructor
  · intro i
    by_cases hirq : i = irq
    · subst hirq
      simpa only [Function.update_self] using hlow
    · simpa only [Function.update_of_ne hirq] using hi.range i
  · intro i
    have hcredit := hi.credit i
    have hbottom : ThreadPc.bottom.owed s.cond i = 0 := by
      simp [ThreadPc.owed, ThreadPc.pass]
    simp only [hpc, ThreadPc.owed] at hcredit
    by_cases hirq : i = irq
    · subst hirq
      simp only [if_true] at hcredit
      simp only [Function.update_self, hbottom]
      omega
    · have hne : ¬ irq = i := fun heq => hirq heq.symm
      simp only [hne, if_false] at hcredit
      simpa only [Function.update_of_ne hirq, hbottom] using hcredit

theorem step_inv (hi : Inv s) (hC : RaisesSampled s e) (h : step s e = .ok s') : Inv s' := by
  cases step_does h with
  | @arrive i hpc =>
      have hcredit := hi.credit i
      simp only [hpc, IrqPc.unraised] at hcredit
      refine hi.handle rfl rfl (fun j hj => Function.update_of_ne hj _ _)
        (fun j _ => le_refl _) ?_
      simp only [Function.update_self, goto, IrqPc.unraised]
      omega
  | @raise i hpc => exact raise_inv hi hpc (fun irq => hC i irq rfl hpc) _
  | @count i hpc =>
      have hcredit := hi.credit i
      simp only [hpc, IrqPc.unraised] at hcredit
      exact hi.handle rfl rfl (fun j _ => rfl) (fun j _ => le_refl _) hcredit
  | @wake i hpc =>
      have hcredit := hi.credit i
      simp only [hpc, IrqPc.unraised] at hcredit
      refine hi.handle rfl rfl (fun j _ => rfl) (fun j _ => ?_) ?_
      · exact (ThreadPc.owed_wake s.cond j s.thread).le
      · rw [ThreadPc.owed_wake]
        exact hcredit
  | sample hpc =>
      refine ⟨hi.range, hi.wake fun i => ?_⟩
      simp [hpc, ThreadPc.owed, ThreadPc.pass]
  | clear hpc =>
      refine ⟨hi.range, fun i => ?_⟩
      have hcredit := hi.credit i
      simp only [hpc, ThreadPc.owed, ThreadPc.pass] at hcredit
      simpa [ThreadPc.owed] using hcredit
  | pass hpc =>
      refine ⟨hi.range, hi.wake fun i => ?_⟩
      simp [hpc, ThreadPc.owed, ThreadPc.pass]
  | sleep hpc =>
      refine ⟨hi.range, hi.wake fun i => ?_⟩
      simp [hpc, ThreadPc.owed, ThreadPc.pass]
  | found hpc hcond =>
      refine ⟨hi.range, hi.wake fun i => ?_⟩
      simp [hpc, ThreadPc.owed, ThreadPc.pass, hcond]
  | nothing hpc hcond =>
      refine ⟨hi.range, hi.wake fun i => ?_⟩
      simp [hpc, ThreadPc.owed, ThreadPc.pass, hcond]
  | credit hpc => exact credit_inv hi hpc
  | loop hpc hnext =>
      refine ⟨hi.range, hi.wake fun i => ?_⟩
      rcases hnext with rfl | rfl <;> simp [hpc, ThreadPc.owed, ThreadPc.pass]
  | stop =>
      refine ⟨hi.range, hi.wake fun i => ?_⟩
      rw [ThreadPc.owed_wake]

theorem Raised.attributed (h : Raised s) : Attributed s := fun irq hirq => (h.crediting irq hirq).2

/-- The flag stays as it is, and the thread does not come to hold another line. -/
theorem Raised.keep (h : Raised s) (hcond : s'.cond = s.cond) (hraiser : s'.raiser = s.raiser)
    (hpass : ∀ irq, s'.thread.pass = some irq → s.thread.pass = some irq)
    (hcrediting : ∀ irq, s'.thread = .crediting irq →
      s.thread = .crediting irq ∨ s.thread.pass = some irq ∧ s.cond = 1) : Raised s' := by
  constructor
  · intro irq hirq hone
    rw [hcond] at hone
    rw [hraiser]
    exact h.pass irq (hpass irq hirq) hone
  · intro irq hirq
    rw [hcond, hraiser]
    rcases hcrediting irq hirq with hbefore | ⟨hheld, hone⟩
    · exact h.crediting irq hbefore
    · exact ⟨hone, h.pass irq hheld hone⟩

theorem raise_raised (hr : Raised s) {i : ℕ}
    (hC : ∀ irq, s.thread.pass = some irq → s.cond ≠ 1 → i = irq) :
    Raised { s.goto i .raised with
      cond := 1
      raiser := if s.cond = 1 then s.raiser else some i } := by
  constructor
  · intro irq hirq _
    by_cases hcond : s.cond = 1
    · simpa only [hcond, if_true] using hr.pass irq hirq hcond
    · simp only [if_neg hcond, hC irq hirq hcond]
  · intro irq hirq
    obtain ⟨hone, hraiser⟩ := hr.crediting irq hirq
    exact ⟨rfl, by simp only [if_pos hone, hraiser]⟩

theorem step_raised (hr : Raised s) (hC : RaisesSampled s e) (h : step s e = .ok s') :
    Raised s' := by
  cases step_does h with
  | arrive _ => exact hr.keep rfl rfl (fun _ hirq => hirq) (fun _ hirq => .inl hirq)
  | @raise i hpc => exact raise_raised hr fun irq => hC i irq rfl hpc
  | count _ => exact hr.keep rfl rfl (fun _ hirq => hirq) (fun _ hirq => .inl hirq)
  | wake _ =>
      exact hr.keep rfl rfl (fun irq hirq => by rwa [← ThreadPc.pass_wake])
        (fun irq hirq => .inl (ThreadPc.crediting_of_wake hirq))
  | clear _ =>
      -- the line of the new pass is still to raise the flag
      exact ⟨fun irq _ hone => by simp at hone, fun irq hirq => by cases hirq⟩
  | pass hpc =>
      refine hr.keep rfl rfl (fun irq hirq => ?_) (fun irq hirq => by cases hirq)
      rw [hpc]
      exact hirq
  | sleep hpc =>
      refine hr.keep rfl rfl (fun irq hirq => ?_) (fun irq hirq => by cases hirq)
      rw [hpc]
      exact hirq
  | found hpc hcond =>
      refine hr.keep rfl rfl (fun irq hirq => by cases hirq) (fun irq hirq => ?_)
      cases hirq
      exact .inr ⟨by rw [hpc, ThreadPc.pass], hcond⟩
  | loop _ hnext =>
      rcases hnext with rfl | rfl <;>
        exact hr.keep rfl rfl (fun irq hirq => by cases hirq) (fun irq hirq => by cases hirq)
  | stop =>
      exact hr.keep rfl rfl (fun irq hirq => by rwa [← ThreadPc.pass_wake])
        (fun irq hirq => .inl (ThreadPc.crediting_of_wake hirq))
  | _ => exact hr.keep rfl rfl (fun irq hirq => by cases hirq) (fun irq hirq => by cases hirq)

/-- In every interleaving in which the wait of each pass is ended by the line that the
pass has sampled, no line is credited with a bottom half that it is not owed, and each bottom
half is counted for the line that raised the event. -/
theorem credited_of_raises (es : List Event) (hC : Runs.Along step RaisesSampled initial es) :
    Runs.Always step (fun s => Credited s ∧ Attributed s) initial es := by
  apply Runs.always_of_along (I := fun s => Inv s ∧ Raised s) ?_ ?_ ⟨inv_initial, raised_initial⟩ hC
  · rintro s ⟨hi, hr⟩
    exact ⟨hi.credited, hr.attributed⟩
  · rintro s e s' ⟨hi, hr⟩ hC h
    exact ⟨step_inv hi hC h, step_raised hr hC h⟩

/-- An interrupt on line 0, taken by a pass that has sampled line 0, and one on line 5, whose
handler has left its number before the next pass and raises the flag in it. -/
def twoLines : List Event :=
  [.sample, .clear, .test, .arrive 0, .raise 0, .count 0, .wake 0, .arrive 5, .test, .recheck,
    .credit, .loop, .sample, .clear, .test, .raise 5, .count 5, .wake 5, .test, .recheck, .credit]

theorem twoLines_credited :
    Runs.Always step (fun s => Credited s ∧ Attributed s) initial twoLines ∧
      ∃ s, Runs.exec step initial twoLines = .ok s ∧ s.bhs 0 = 1 ∧ s.bhs 5 = 1 := by
  refine ⟨credited_of_raises twoLines ?_, _, rfl, rfl, rfl⟩
  iterate 4
    apply Runs.along_cons_of rfl
    · nofun
  apply Runs.along_cons_of rfl
  · rintro i irq ⟨⟩ - hpass -
    exact Option.some.inj hpass
  iterate 10
    apply Runs.along_cons_of rfl
    · nofun
  apply Runs.along_cons_of rfl
  · rintro i irq ⟨⟩ - hpass -
    exact Option.some.inj hpass
  iterate 5
    apply Runs.along_cons_of rfl
    · nofun
  trivial

/-- The first interrupt comes on line 5. The thread has sampled the slot before, and
credits line 0. -/
theorem line_five_credits_line_zero :
    ∃ s, Runs.exec step initial
        [.sample, .clear, .test, .arrive 5, .raise 5, .count 5, .wake 5, .test, .recheck,
          .credit] = .ok s ∧
      s.bhs 0 = 1 ∧ s.delivered 0 = 0 ∧ s.bhs 5 = 0 ∧ s.delivered 5 = 1 ∧
      ¬ Runs.Always step Credited initial
        [.sample, .clear, .test, .arrive 5, .raise 5, .count 5, .wake 5, .test, .recheck,
          .credit] := by
  refine ⟨_, rfl, rfl, rfl, rfl, rfl, ?_⟩
  apply Runs.not_always_of_exec rfl
  intro hcredited
  exact absurd (hcredited 0) (by decide)

end State

end LddSamples.Interrupts.AllThread

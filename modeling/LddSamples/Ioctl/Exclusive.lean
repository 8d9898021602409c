import LddSamples.Dma.Generic
import LddSamples.Kernel.Process
import LddSamples.Library.Census
import LddSamples.Library.Lock
import LddSamples.Library.Runs

/-!
# lab4_excl: the last reader to leave clears the flag

Readers sleep exclusively, so a wakeup reaches one of them, and `nsleepers` counts those that
have not left their wait. The last one resets `data_ready`: its decrement and the reset are
two steps under `nsleepers_lock`, which the other readers and the writers do not take.
-/

namespace LddSamples.Ioctl.Exclusive

open Kernel Outcome Dma Census

/-- Where a process stands: a reader is at the test of its wait, asleep, past the wait, under
the lock, at the reset, at the unlock, or past it; a writer has written, or has also woken a
reader. -/
inductive Pc
  | out
  | waiting (lbuf : ℕ)
  | asleep (lbuf : ℕ)
  | passed (lbuf : ℕ)
  | locked (lbuf : ℕ)
  | resetting (lbuf : ℕ)
  | leaving (lbuf : ℕ)
  | reading (lbuf : ℕ)
  | written (nbytes : ℤ)
  | woken (nbytes : ℤ)

def Pc.wake : Pc → Pc
  | .asleep lbuf => .waiting lbuf
  | pc => pc

/-- Counted in `nsleepers`. -/
def Pc.Counted : Pc → Prop
  | .waiting _ => True
  | .asleep _ => True
  | .passed _ => True
  | .locked _ => True
  | _ => False

def Pc.HoldsLock : Pc → Prop
  | .locked _ => True
  | .resetting _ => True
  | .leaving _ => True
  | _ => False

def Pc.Resetting : Pc → Prop
  | .resetting _ => True
  | _ => False

/-- `queue` is `wq`, the first to be woken in front. -/
structure World (ι : Type) where
  dataReady : ℤ
  nsleepers : ℤ
  owner : Option ι
  queue : List ι
  ramdisk : ℕ → UInt8
  fPos : ι → ℤ
  pc : ι → Pc

inductive Event (ι : Type)
  | read (p : ι) (lbuf : ℕ)
  | test (p : ι)
  | signal (p : ι)
  | lock (p : ι)
  | decrement (p : ι)
  | reset (p : ι)
  | unlock (p : ι)
  | copyOut (p : ι) (k : ℕ)
  | write (p : ι) (buf : List UInt8) (k : ℕ)
  | wakeUp (p : ι)
  | announce (p : ι)

namespace World

variable {ι : Type}

def initial (ramdisk : ℕ → UInt8) : World ι := ⟨0, 0, none, [], ramdisk, fun _ => 0, fun _ => .out⟩

variable [DecidableEq ι]

def goto (w : World ι) (p : ι) (pc : Pc) : World ι := { w with pc := Function.update w.pc p pc }

/-- `wake_up_interruptible` of exclusive waiters: the first one leaves the queue. -/
def wakeFirst (w : World ι) : World ι :=
  match w.queue with
  | [] => w
  | q :: queue => { w with queue := queue, pc := Function.update w.pc q (w.pc q).wake }

/-- A wait's test and its enqueueing are one step. A signal ends the wait, and `mycdrv_read`
goes on as after a wakeup. -/
def step (w : World ι) : Event ι → Except Stop (World ι)
  | .read p lbuf =>
      match w.pc p with
      | .out => .ok { w.goto p (.waiting lbuf) with nsleepers := w.nsleepers + 1 }
      | _ => .error .disabled
  | .test p =>
      match w.pc p with
      | .waiting lbuf =>
          if w.dataReady ≠ 0 then .ok (w.goto p (.passed lbuf))
          else .ok { w.goto p (.asleep lbuf) with queue := w.queue ++ [p] }
      | _ => .error .disabled
  | .signal p =>
      match w.pc p with
      | .asleep lbuf => .ok { w.goto p (.passed lbuf) with queue := w.queue.erase p }
      | _ => .error .disabled
  | .lock p =>
      match w.pc p, w.owner with
      | .passed lbuf, none => .ok { w.goto p (.locked lbuf) with owner := some p }
      | _, _ => .error .disabled
  | .decrement p =>
      match w.pc p with
      | .locked lbuf =>
          let left := w.nsleepers - 1
          .ok { w.goto p (if left = 0 then .resetting lbuf else .leaving lbuf) with
            nsleepers := left }
      | _ => .error .disabled
  | .reset p =>
      match w.pc p with
      | .resetting lbuf => .ok { w.goto p (.leaving lbuf) with dataReady := 0 }
      | _ => .error .disabled
  | .unlock p =>
      match w.pc p with
      | .leaving lbuf => .ok { w.goto p (.reading lbuf) with owner := none }
      | _ => .error .disabled
  | .copyOut p k =>
      match w.pc p with
      | .reading lbuf => do
          let r ← crash (mycdrvGenericRead w.ramdisk lbuf (w.fPos p) k)
          .ok { w.goto p .out with fPos := Function.update w.fPos p r.pos }
      | _ => .error .disabled
  | .write p buf k =>
      match w.pc p with
      | .out => do
          let r ← crash (mycdrvGenericWrite w.ramdisk buf (w.fPos p) k)
          .ok { w.goto p (.written r.ret) with
            ramdisk := r.ramdisk
            fPos := Function.update w.fPos p r.pos }
      | _ => .error .disabled
  | .wakeUp p =>
      match w.pc p with
      | .written nbytes => .ok (w.goto p (.woken nbytes)).wakeFirst
      | _ => .error .disabled
  | .announce p =>
      match w.pc p with
      | .woken _ => .ok { w.goto p .out with dataReady := 1 }
      | _ => .error .disabled

end World

/-! ## What the counter and the lock are for -/

/-- Where a process stands for one who does not look at the counter and the lock. -/
inductive Place
  | out
  | waiting (lbuf : ℕ)
  | asleep (lbuf : ℕ)
  | passed (lbuf : ℕ)
  | reading (lbuf : ℕ)
  | written (nbytes : ℤ)
  | woken (nbytes : ℤ)

def Place.wake : Place → Place
  | .asleep lbuf => .waiting lbuf
  | place => place

/-- In the wait, or past it and not gone from it. -/
def Place.Inside : Place → Prop
  | .waiting _ => True
  | .asleep _ => True
  | .passed _ => True
  | _ => False

structure Handover (ι : Type) where
  dataReady : ℤ
  queue : List ι
  ramdisk : ℕ → UInt8
  fPos : ι → ℤ
  place : ι → Place

inductive Op (ι : Type)
  | read (p : ι) (lbuf : ℕ)
  | test (p : ι)
  | signal (p : ι)
  | leave (p : ι)
  | copyOut (p : ι) (k : ℕ)
  | write (p : ι) (buf : List UInt8) (k : ℕ)
  | wakeUp (p : ι)
  | announce (p : ι)

namespace Handover

variable {ι : Type}

def initial (ramdisk : ℕ → UInt8) : Handover ι := ⟨0, [], ramdisk, fun _ => 0, fun _ => .out⟩

/-- No process but `p` is inside. -/
def LastInside (h : Handover ι) (p : ι) : Prop := ∀ q, q ≠ p → ¬ (h.place q).Inside

noncomputable instance (h : Handover ι) (p : ι) : Decidable (h.LastInside p) :=
  Classical.propDecidable _

variable [DecidableEq ι]

def goto (h : Handover ι) (p : ι) (place : Place) : Handover ι :=
  { h with place := Function.update h.place p place }

def wakeFirst (h : Handover ι) : Handover ι :=
  match h.queue with
  | [] => h
  | q :: queue => { h with queue := queue, place := Function.update h.place q (h.place q).wake }

/-- A reader that leaves as the last one inside takes the data with it, in the same step. -/
noncomputable def step (h : Handover ι) : Op ι → Except Stop (Handover ι)
  | .read p lbuf =>
      match h.place p with
      | .out => .ok (h.goto p (.waiting lbuf))
      | _ => .error .disabled
  | .test p =>
      match h.place p with
      | .waiting lbuf =>
          if h.dataReady ≠ 0 then .ok (h.goto p (.passed lbuf))
          else .ok { h.goto p (.asleep lbuf) with queue := h.queue ++ [p] }
      | _ => .error .disabled
  | .signal p =>
      match h.place p with
      | .asleep lbuf => .ok { h.goto p (.passed lbuf) with queue := h.queue.erase p }
      | _ => .error .disabled
  | .leave p =>
      match h.place p with
      | .passed lbuf => .ok { h.goto p (.reading lbuf) with
          dataReady := if h.LastInside p then 0 else h.dataReady }
      | _ => .error .disabled
  | .copyOut p k =>
      match h.place p with
      | .reading lbuf => do
          let r ← crash (mycdrvGenericRead h.ramdisk lbuf (h.fPos p) k)
          .ok { h.goto p .out with fPos := Function.update h.fPos p r.pos }
      | _ => .error .disabled
  | .write p buf k =>
      match h.place p with
      | .out => do
          let r ← crash (mycdrvGenericWrite h.ramdisk buf (h.fPos p) k)
          .ok { h.goto p (.written r.ret) with
            ramdisk := r.ramdisk
            fPos := Function.update h.fPos p r.pos }
      | _ => .error .disabled
  | .wakeUp p =>
      match h.place p with
      | .written nbytes => .ok (h.goto p (.woken nbytes)).wakeFirst
      | _ => .error .disabled
  | .announce p =>
      match h.place p with
      | .woken _ => .ok { h.goto p .out with dataReady := 1 }
      | _ => .error .disabled

end Handover

/-! ## What the driver shows -/

def Pc.place : Pc → Place
  | .out => .out
  | .waiting lbuf => .waiting lbuf
  | .asleep lbuf => .asleep lbuf
  | .passed lbuf => .passed lbuf
  | .locked lbuf => .passed lbuf
  | .resetting lbuf => .reading lbuf
  | .leaving lbuf => .reading lbuf
  | .reading lbuf => .reading lbuf
  | .written nbytes => .written nbytes
  | .woken nbytes => .woken nbytes

@[simp] theorem Pc.place_wake (pc : Pc) : pc.wake.place = pc.place.wake := by
  cases pc <;> rfl

theorem Pc.counted_iff (pc : Pc) : pc.Counted ↔ pc.place.Inside := by
  cases pc <;> rfl

namespace World

variable {ι : Type}

/-- A reader has found that it is the last one, and has not yet reset `data_ready`. -/
def Resetting (w : World ι) : Prop := ∃ p, (w.pc p).Resetting

noncomputable instance (w : World ι) : Decidable w.Resetting := Classical.propDecidable _

/-- Data that are about to be cleared have gone with the last reader. -/
noncomputable def shown (w : World ι) : Handover ι where
  dataReady := if w.Resetting then 0 else w.dataReady
  queue := w.queue
  ramdisk := w.ramdisk
  fPos := w.fPos
  place := Pc.place ∘ w.pc

/-- The decrement is the step by which a reader leaves. -/
def ops (_ : World ι) : Event ι → List (Op ι)
  | .read p lbuf => [.read p lbuf]
  | .test p => [.test p]
  | .signal p => [.signal p]
  | .decrement p => [.leave p]
  | .copyOut p k => [.copyOut p k]
  | .write p buf k => [.write p buf k]
  | .wakeUp p => [.wakeUp p]
  | .announce p => [.announce p]
  | _ => []

/-- While a last reader is between its decrement and its reset, no write announces data, and
no reader finds the old data at its test. -/
def Undisturbed (w : World ι) (e : Event ι) : Prop :=
  w.Resetting →
    (∀ p nbytes, e = .announce p → w.pc p ≠ .woken nbytes) ∧
      ∀ p lbuf, e = .test p → w.pc p = .waiting lbuf → w.dataReady = 0

def HoldsLock (w : World ι) (p : ι) : Prop := (w.pc p).HoldsLock

structure Inv (w : World ι) : Prop where
  guards : Lock.Guards w.owner w.HoldsLock
  counts : ∃ n : ℕ, Counts Pc.Counted w.pc n ∧ w.nsleepers = n

variable [DecidableEq ι] {w w' : World ι} {e : Event ι}

omit [DecidableEq ι] in
theorem initial_inv (ramdisk : ℕ → UInt8) : Inv (initial ramdisk : World ι) where
  guards := Lock.guards_none fun _ h => h
  counts := ⟨0, counts_zero fun _ h => h, rfl⟩

/-! ### The lock and the counter -/

theorem holdsLock_others {p q : ι} {pc : Pc} (hq : q ≠ p) :
    (Function.update w.pc p pc q).HoldsLock ↔ w.HoldsLock q := by
  rw [Function.update_of_ne hq, HoldsLock]

/-- A step that leaves the count alone. -/
theorem Inv.move (h : Inv w) {p : ι} {pc : Pc} (hpc : w'.pc = Function.update w.pc p pc)
    (hlock : Lock.Move p (w.HoldsLock p) pc.HoldsLock w.owner w'.owner)
    (hcounted : pc.Counted ↔ (w.pc p).Counted) (hsleepers : w'.nsleepers = w.nsleepers) :
    Inv w' := by
  obtain ⟨n, hcounts, hn⟩ := h.counts
  constructor
  · apply h.guards.move (p := p)
    · simpa only [HoldsLock, hpc, Function.update_self] using hlock
    · intro q hq
      simp only [HoldsLock, hpc, Function.update_of_ne hq]
  · refine ⟨n, ?_, hsleepers.trans hn⟩
    rw [hpc]
    exact hcounts.stays hcounted

/-- A step that leaves the lock alone, too. -/
theorem Inv.quiet (h : Inv w) {p : ι} {pc pc' : Pc} (hp : w.pc p = pc)
    (hpc : w'.pc = Function.update w.pc p pc') (hlock : pc'.HoldsLock ↔ pc.HoldsLock)
    (hcounted : pc'.Counted ↔ pc.Counted) (howner : w'.owner = w.owner)
    (hsleepers : w'.nsleepers = w.nsleepers) : Inv w' := by
  rw [← hp] at hlock hcounted
  apply h.move hpc ?_ hcounted hsleepers
  rw [howner]
  exact .stays hlock

theorem wakeFirst_inv (h : Inv w) : Inv w.wakeFirst := by
  unfold wakeFirst
  split
  · exact h
  · next q queue _ =>
      have hpc : ({ w with queue := queue, pc := Function.update w.pc q (w.pc q).wake } :
          World ι).pc = Function.update w.pc q (w.pc q).wake := rfl
      refine h.quiet rfl hpc ?_ ?_ rfl rfl
      · cases w.pc q <;> rfl
      · cases w.pc q <;> rfl

theorem read_inv (h : Inv w) {p : ι} (hp : w.pc p = .out) (lbuf : ℕ) :
    Inv { w.goto p (.waiting lbuf) with nsleepers := w.nsleepers + 1 } := by
  obtain ⟨n, hcounts, hn⟩ := h.counts
  constructor
  · apply h.guards.move (p := p)
    · exact .stays (by simp [HoldsLock, goto, hp, Pc.HoldsLock])
    · exact fun q hq => holdsLock_others hq
  · refine ⟨n + 1, hcounts.enters ?_ trivial, ?_⟩
    · rw [hp]
      exact id
    · simp [hn]

/-- The counter after a decrement says whether anybody else is inside. -/
theorem Inv.decremented (h : Inv w) {p : ι} {lbuf : ℕ} (hp : w.pc p = .locked lbuf) {pc : Pc}
    (hpc : ¬ pc.Counted) :
    (∃ n : ℕ, Counts Pc.Counted (Function.update w.pc p pc) n ∧ w.nsleepers - 1 = n) ∧
      (w.nsleepers - 1 = 0 ↔ w.shown.LastInside p) := by
  obtain ⟨n, hcounts, hn⟩ := h.counts
  have hcounted : (w.pc p).Counted := by
    rw [hp]
    trivial
  have hpos := hcounts.ne_zero hcounted
  have hleft := hcounts.leaves hcounted hpc
  have hcast : w.nsleepers - 1 = (n - 1 : ℕ) := by omega
  refine ⟨⟨n - 1, hleft, hcast⟩, ?_⟩
  rw [hcast, Int.natCast_eq_zero]
  constructor
  · intro hzero q hq
    rw [hzero] at hleft
    have hnot := hleft.forall_not q
    rwa [Function.update_of_ne hq, Pc.counted_iff] at hnot
  · intro hlast
    apply hleft.eq_zero
    intro q
    by_cases hq : q = p
    · rwa [hq, Function.update_self]
    · rw [Function.update_of_ne hq, Pc.counted_iff]
      exact hlast q hq

theorem decrement_inv (h : Inv w) {p : ι} {lbuf : ℕ} (hp : w.pc p = .locked lbuf) {pc : Pc}
    (hpc : ¬ pc.Counted) (hlock : pc.HoldsLock) :
    Inv { w.goto p pc with nsleepers := w.nsleepers - 1 } where
  guards := by
    apply h.guards.move (p := p)
    · refine .stays (iff_of_true ?_ (by simp [HoldsLock, hp, Pc.HoldsLock]))
      simpa [HoldsLock, goto] using hlock
    · exact fun q hq => holdsLock_others hq
  counts := (h.decremented hp hpc).1

theorem step_inv (hw : Inv w) (h : step w e = .ok w') : Inv w' := by
  cases e with
  | read p lbuf =>
      simp only [step] at h
      split at h
      · next hp =>
          cases h
          exact read_inv hw hp lbuf
      · cases h
  | test p =>
      simp only [step] at h
      split at h
      · next lbuf hp =>
          split at h
          · cases h
            exact hw.quiet hp rfl Iff.rfl Iff.rfl rfl rfl
          · cases h
            exact hw.quiet hp rfl Iff.rfl Iff.rfl rfl rfl
      · cases h
  | signal p =>
      simp only [step] at h
      split at h
      · next lbuf hp =>
          cases h
          exact hw.quiet hp rfl Iff.rfl Iff.rfl rfl rfl
      · cases h
  | lock p =>
      simp only [step] at h
      split at h
      · next lbuf hp hfree =>
          cases h
          exact hw.move rfl (.acquires hfree trivial) (by simp [hp, Pc.Counted]) rfl
      · cases h
  | decrement p =>
      simp only [step] at h
      split at h
      · next lbuf hp =>
          cases h
          split
          · exact decrement_inv hw hp id trivial
          · exact decrement_inv hw hp id trivial
      · cases h
  | reset p =>
      simp only [step] at h
      split at h
      · next lbuf hp =>
          cases h
          exact hw.quiet hp rfl Iff.rfl Iff.rfl rfl rfl
      · cases h
  | unlock p =>
      simp only [step] at h
      split at h
      · next lbuf hp =>
          cases h
          have hin : w.HoldsLock p := by simp [HoldsLock, hp, Pc.HoldsLock]
          exact hw.move rfl (.releases hin id) (by simp [hp, Pc.Counted]) rfl
      · cases h
  | copyOut p k =>
      simp only [step] at h
      split at h
      · next lbuf hp =>
          simp only [bind_eq_ok, Except.ok.injEq] at h
          obtain ⟨r, -, rfl⟩ := h
          exact hw.quiet hp rfl Iff.rfl Iff.rfl rfl rfl
      · cases h
  | write p buf k =>
      simp only [step] at h
      split at h
      · next hp =>
          simp only [bind_eq_ok, Except.ok.injEq] at h
          obtain ⟨r, -, rfl⟩ := h
          exact hw.quiet hp rfl Iff.rfl Iff.rfl rfl rfl
      · cases h
  | wakeUp p =>
      simp only [step] at h
      split at h
      · next nbytes hp =>
          cases h
          apply wakeFirst_inv
          exact hw.quiet hp rfl Iff.rfl Iff.rfl rfl rfl
      · cases h
  | announce p =>
      simp only [step] at h
      split at h
      · next nbytes hp =>
          cases h
          exact hw.quiet hp rfl Iff.rfl Iff.rfl rfl rfl
      · cases h

/-! ### The simulation -/

theorem resetting_of_move {p : ι} {pc : Pc} (hpc : w'.pc = Function.update w.pc p pc)
    (hreset : pc.Resetting ↔ (w.pc p).Resetting) : w'.Resetting ↔ w.Resetting := by
  simp only [Resetting, hpc]
  refine exists_congr fun q => ?_
  by_cases hq : q = p
  · rw [hq, Function.update_self, hreset]
  · rw [Function.update_of_ne hq]

theorem shown_of_move {p : ι} {pc : Pc} {data : ℤ} (hpc : w'.pc = Function.update w.pc p pc)
    (hdata : w'.shown.dataReady = data) :
    w'.shown = ⟨data, w'.queue, w'.ramdisk, w'.fPos,
      Function.update w.shown.place p pc.place⟩ := by
  change Handover.mk w'.shown.dataReady w'.queue w'.ramdisk w'.fPos (Pc.place ∘ w'.pc) = _
  rw [hdata, hpc, Function.comp_update]
  rfl

/-- The other system makes the move that the driver shows. -/
theorem eq_shown {x : Except Stop (Handover ι)} {p : ι} {pc : Pc} {data : ℤ}
    (hpc : w'.pc = Function.update w.pc p pc) (hdata : w'.shown.dataReady = data)
    (hx : x = .ok ⟨data, w'.queue, w'.ramdisk, w'.fPos,
      Function.update w.shown.place p pc.place⟩) : x = .ok w'.shown := by
  rw [shown_of_move hpc hdata]
  exact hx

/-- The same for a step that neither begins nor ends a reset. -/
theorem eq_shown_of_quiet {x : Except Stop (Handover ι)} {p : ι} {pc pc' : Pc}
    (hp : w.pc p = pc) (hpc : w'.pc = Function.update w.pc p pc')
    (hreset : pc'.Resetting ↔ pc.Resetting) (hready : w'.dataReady = w.dataReady)
    (hx : x = .ok ⟨w.shown.dataReady, w'.queue, w'.ramdisk, w'.fPos,
      Function.update w.shown.place p pc'.place⟩) : x = .ok w'.shown := by
  rw [← hp] at hreset
  exact eq_shown hpc (if_congr (resetting_of_move hpc hreset) rfl hready) hx

omit [DecidableEq ι] in
theorem shown_place {p : ι} {pc : Pc} (hp : w.pc p = pc) : w.shown.place p = pc.place :=
  congrArg Pc.place hp

theorem place_stays {p : ι} {pc : Pc} (hp : w.pc p = pc) (pc' : Pc) (h : pc'.place = pc.place) :
    Function.update w.shown.place p pc'.place = w.shown.place := by
  rw [h, ← shown_place hp]
  exact Function.update_eq_self p _

theorem shown_wakeFirst (w : World ι) : w.wakeFirst.shown = w.shown.wakeFirst := by
  unfold wakeFirst Handover.wakeFirst
  cases hqueue : w.queue with
  | nil => simp only [shown, hqueue]
  | cons q queue =>
      have hreset : (w.pc q).wake.Resetting ↔ (w.pc q).Resetting := by
        cases w.pc q <;> rfl
      have hpc : ({ w with queue := queue, pc := Function.update w.pc q (w.pc q).wake } :
          World ι).pc = Function.update w.pc q (w.pc q).wake := rfl
      have hsame := resetting_of_move hpc hreset
      rw [shown_of_move hpc (if_congr hsame rfl rfl), Pc.place_wake]
      simp only [shown, hqueue, Function.comp_apply]

omit [DecidableEq ι] in
theorem Inv.not_resetting (h : Inv w) {p : ι} (hlock : w.HoldsLock p)
    (hp : ¬ (w.pc p).Resetting) : ¬ w.Resetting := by
  rintro ⟨q, hq⟩
  have hholds : w.HoldsLock q := by
    unfold HoldsLock
    revert hq
    cases w.pc q <;> simp [Pc.Resetting, Pc.HoldsLock]
  rw [h.guards.unique hholds hlock] at hq
  exact hp hq

/-- What the driver shows after a step, where nothing happens to it during a reset, is what the
other system does. -/
theorem step_shown (hw : Inv w) (hC : Undisturbed w e) (h : step w e = .ok w') :
    Runs.exec Handover.step w.shown (ops w e) = .ok w'.shown := by
  cases e with
  | read p lbuf =>
      simp only [step] at h
      split at h
      · next hp =>
          cases h
          refine eq_shown_of_quiet hp rfl Iff.rfl rfl ?_
          have hplace : w.shown.place p = .out := shown_place hp
          simp only [ops, Runs.exec_cons, Handover.step, hplace]
          rfl
      · cases h
  | test p =>
      simp only [step] at h
      split at h
      · next lbuf hp =>
          -- during a reset the data are still there only if the test is disturbed
          have hready : w.shown.dataReady ≠ 0 ↔ w.dataReady ≠ 0 := by
            simp only [shown]
            split
            · next hreset => simp [(hC hreset).2 p lbuf rfl hp]
            · rfl
          have hplace : w.shown.place p = .waiting lbuf := shown_place hp
          split at h
          · next hset =>
              cases h
              refine eq_shown_of_quiet hp rfl Iff.rfl rfl ?_
              simp only [ops, Runs.exec_cons, Handover.step, hplace, if_pos (hready.mpr hset)]
              rfl
          · next hclear =>
              cases h
              refine eq_shown_of_quiet hp rfl Iff.rfl rfl ?_
              simp only [ops, Runs.exec_cons, Handover.step, hplace, if_neg (hready.not.mpr hclear)]
              rfl
      · cases h
  | signal p =>
      simp only [step] at h
      split at h
      · next lbuf hp =>
          cases h
          refine eq_shown_of_quiet hp rfl Iff.rfl rfl ?_
          have hplace : w.shown.place p = .asleep lbuf := shown_place hp
          simp only [ops, Runs.exec_cons, Handover.step, hplace]
          rfl
      · cases h
  | lock p =>
      simp only [step] at h
      split at h
      · next lbuf hp hfree =>
          cases h
          refine eq_shown_of_quiet hp rfl Iff.rfl rfl ?_
          rw [place_stays hp (.locked lbuf) rfl]
          rfl
      · cases h
  | decrement p =>
      simp only [step] at h
      split at h
      · next lbuf hp =>
          cases h
          have hidle : w.shown.dataReady = w.dataReady := if_neg <|
            hw.not_resetting (p := p) (by simp [HoldsLock, hp, Pc.HoldsLock])
              (by simp [hp, Pc.Resetting])
          have hplace : w.shown.place p = .passed lbuf := shown_place hp
          have hcounter := fun (pc : Pc) (hpc : ¬ pc.Counted) => (hw.decremented hp hpc).2
          split
          · next hzero =>
              have hlast := (hcounter (.resetting lbuf) id).mp hzero
              refine eq_shown (p := p) rfl (if_pos ⟨p, by simp [goto, Pc.Resetting]⟩) ?_
              simp only [ops, Runs.exec_cons, Handover.step, hplace, if_pos hlast]
              rfl
          · next hmore =>
              have hothers := (hcounter (.leaving lbuf) id).not.mp hmore
              refine eq_shown_of_quiet hp rfl Iff.rfl rfl ?_
              simp only [ops, Runs.exec_cons, Handover.step, hplace, if_neg hothers]
              rfl
      · cases h
  | reset p =>
      simp only [step] at h
      split at h
      · next lbuf hp =>
          cases h
          have hreset : w.shown.dataReady = 0 := if_pos ⟨p, by simp [hp, Pc.Resetting]⟩
          refine eq_shown (p := p) rfl (ite_self 0) ?_
          rw [place_stays hp (.leaving lbuf) rfl, ← hreset]
          rfl
      · cases h
  | unlock p =>
      simp only [step] at h
      split at h
      · next lbuf hp =>
          cases h
          refine eq_shown_of_quiet hp rfl Iff.rfl rfl ?_
          rw [place_stays hp (.reading lbuf) rfl]
          rfl
      · cases h
  | copyOut p k =>
      simp only [step] at h
      split at h
      · next lbuf hp =>
          simp only [bind_eq_ok, Except.ok.injEq] at h
          obtain ⟨r, hr, rfl⟩ := h
          refine eq_shown_of_quiet hp rfl Iff.rfl rfl ?_
          have hplace : w.shown.place p = .reading lbuf := shown_place hp
          have hsame : crash (mycdrvGenericRead w.shown.ramdisk lbuf (w.shown.fPos p) k) = .ok r :=
            hr
          simp only [ops, Runs.exec_cons, Handover.step, hplace, hsame, ok_bind]
          rfl
      · cases h
  | write p buf k =>
      simp only [step] at h
      split at h
      · next hp =>
          simp only [bind_eq_ok, Except.ok.injEq] at h
          obtain ⟨r, hr, rfl⟩ := h
          refine eq_shown_of_quiet hp rfl Iff.rfl rfl ?_
          have hplace : w.shown.place p = .out := shown_place hp
          have hsame : crash (mycdrvGenericWrite w.shown.ramdisk buf (w.shown.fPos p) k) = .ok r :=
            hr
          simp only [ops, Runs.exec_cons, Handover.step, hplace, hsame, ok_bind]
          rfl
      · cases h
  | wakeUp p =>
      simp only [step] at h
      split at h
      · next nbytes hp =>
          cases h
          have hplace : w.shown.place p = .written nbytes := shown_place hp
          have hwritten : Except.ok (w.shown.goto p (.woken nbytes)) =
              (.ok (w.goto p (.woken nbytes)).shown : Except Stop (Handover ι)) :=
            eq_shown_of_quiet hp rfl Iff.rfl rfl rfl
          rw [shown_wakeFirst, ← Except.ok.inj hwritten]
          simp only [ops, Runs.exec_cons, Handover.step, hplace]
          rfl
      · cases h
  | announce p =>
      simp only [step] at h
      split at h
      · next nbytes hp =>
          cases h
          have hidle : ¬ w.Resetting := fun hreset => (hC hreset).1 p nbytes rfl hp
          have hplace : w.shown.place p = .woken nbytes := shown_place hp
          refine eq_shown (p := p) rfl (if_neg ?_) ?_
          · rwa [resetting_of_move (p := p) rfl (by simp [hp, Pc.Resetting])]
          · simp only [ops, Runs.exec_cons, Handover.step, hplace]
            rfl
      · cases h

/-- A disturbed step shows what the other system does not do. -/
theorem exists_not_shown (hC : ¬ Undisturbed w e) :
    ∃ w', step w e = .ok w' ∧ Runs.exec Handover.step w.shown (ops w e) ≠ .ok w'.shown := by
  rw [Undisturbed, Classical.not_imp, not_and_or] at hC
  push Not at hC
  obtain ⟨⟨q, hq⟩, ⟨p, nbytes, rfl, hp⟩ | ⟨p, lbuf, rfl, hp, hready⟩⟩ := hC
  · -- the announcement is not shown, because the reset will wipe it out
    have hplace : w.shown.place p = .woken nbytes := shown_place hp
    have hne : q ≠ p := by
      rintro rfl
      rw [hp] at hq
      exact hq
    have hstep : step w (.announce p) = .ok { w.goto p .out with dataReady := 1 } := by
      simp only [step, hp]
    refine ⟨_, hstep, fun heq => ?_⟩
    have hwiped : ({ w.goto p .out with dataReady := 1 } : World ι).shown.dataReady = 0 :=
      if_pos ⟨q, by simpa [goto, Function.update_of_ne hne] using hq⟩
    simp only [ops, Runs.exec_cons, Handover.step, hplace, ok_bind, Runs.exec_nil] at heq
    rw [← Except.ok.inj heq] at hwiped
    exact absurd hwiped one_ne_zero
  · -- the reader passes on data that have gone
    have hplace : w.shown.place p = .waiting lbuf := shown_place hp
    have hgone : ¬ w.shown.dataReady ≠ 0 := not_not.mpr (if_pos ⟨q, hq⟩)
    have hstep : step w (.test p) = .ok (w.goto p (.passed lbuf)) := by
      simp only [step, hp, if_pos hready]
    refine ⟨_, hstep, fun heq => ?_⟩
    have hpassed : (w.goto p (.passed lbuf)).shown.place p = .passed lbuf := by
      simp [shown, goto, Pc.place]
    simp only [ops, Runs.exec_cons, Handover.step, hplace, if_neg hgone, ok_bind,
      Runs.exec_nil] at heq
    rw [← Except.ok.inj heq] at hpassed
    simp [Handover.goto] at hpassed

/-- In every interleaving of readers, writers and signals, the driver does what it would do if
the last reader to leave cleared the flag in the same step, exactly when nothing disturbs a
reset. -/
theorem refines_iff (ramdisk : ℕ → UInt8) (es : List (Event ι)) :
    (initial ramdisk : World ι).shown = Handover.initial ramdisk ∧
      (Runs.Refines step Handover.step ops shown (initial ramdisk) es ↔
        Runs.Along step Undisturbed (initial ramdisk) es) := by
  constructor
  · have hidle : ¬ (initial ramdisk : World ι).Resetting := fun ⟨_, hp⟩ => hp
    simp only [shown, if_neg hidle]
    rfl
  · rw [Runs.refines_iff_along]
    apply Runs.along_congr (I := Inv) ?_ (fun w e w' hw _ h => step_inv hw h) (initial_inv ramdisk)
    intro w e hw
    constructor
    · intro hshown
      by_contra hC
      obtain ⟨w', hstep, hne⟩ := exists_not_shown hC
      exact hne (hshown w' hstep)
    · exact fun hC w' hstep => step_shown hw hC hstep

/-- The second write announces its data during the reset of reader 1, and they are lost. -/
example : ∃ w : World ℕ, Runs.exec step (initial fun _ => 0)
    [.read 1 4, .test 1, .write 2 [7] 1, .wakeUp 2, .announce 2, .test 1, .lock 1, .decrement 1,
      .write 3 [8] 1, .wakeUp 3, .announce 3, .reset 1] = .ok w ∧ w.dataReady = 0 :=
  ⟨_, rfl, rfl⟩

end World

end LddSamples.Ioctl.Exclusive

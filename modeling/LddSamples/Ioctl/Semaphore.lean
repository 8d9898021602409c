import LddSamples.Dma.Generic
import LddSamples.Kernel.Process
import LddSamples.Library.Runs

/-!
# lab4_semaphore: a semaphore that starts with a credit

A read takes the semaphore down before it copies, and a write takes it up after it has
copied. `DEFINE_SEMAPHORE` makes a counting semaphore with count 1.
-/

namespace LddSamples.Ioctl.Semaphore

open Kernel CArith Outcome Dma

/-- Where a process stands: a reader is before `down_interruptible`, asleep in it or past
it; a writer is before `up`. -/
inductive Pc
  | out
  | arriving (lbuf : ℕ)
  | asleep (lbuf : ℕ)
  | passed (lbuf : ℕ)
  | written (nbytes : ℤ)

/-- `waiter->up = true`: the semaphore is handed over to a sleeper. -/
def Pc.grant : Pc → Pc
  | .asleep lbuf => .passed lbuf
  | pc => pc

/-- `count` and `waiters` are `my_sem`. `passes` counts the reads that have got the
semaphore, and `ups` the calls of `up`, for the statements. -/
structure World (ι : Type) where
  count : ℕ
  waiters : List ι
  ramdisk : ℕ → UInt8
  fPos : ι → ℤ
  pc : ι → Pc
  passes : ℕ
  ups : ℕ

inductive Event (ι : Type)
  | read (p : ι) (lbuf : ℕ)
  | down (p : ι)
  | interrupt (p : ι)
  | copyOut (p : ι) (k : ℕ)
  | write (p : ι) (buf : List UInt8) (k : ℕ)
  | up (p : ι)

namespace World

variable {ι : Type}

def initial (ramdisk : ℕ → UInt8) : World ι :=
  ⟨1, [], ramdisk, fun _ => 0, fun _ => .out, 0, 0⟩

variable [DecidableEq ι]

def goto (w : World ι) (p : ι) (pc : Pc) : World ι := { w with pc := Function.update w.pc p pc }

/-- `up(&my_sem)`: the first waiter gets the semaphore, and the count grows when there is
none. -/
def release (w : World ι) : World ι :=
  match w.waiters with
  | [] => { w with count := w.count + 1, ups := w.ups + 1 }
  | q :: waiters => { w.goto q (w.pc q).grant with
      waiters := waiters
      passes := w.passes + 1
      ups := w.ups + 1 }

def step (w : World ι) : Event ι → Except Stop (World ι)
  | .read p lbuf =>
      match w.pc p with
      | .out => .ok (w.goto p (.arriving lbuf))
      | _ => .error .disabled
  | .down p =>
      match w.pc p with
      | .arriving lbuf =>
          if 0 < w.count then .ok { w.goto p (.passed lbuf) with
            count := w.count - 1
            passes := w.passes + 1 }
          else .ok { w.goto p (.asleep lbuf) with waiters := w.waiters ++ [p] }
      | _ => .error .disabled
  | .interrupt p =>
      match w.pc p with
      | .asleep _ => .ok { w.goto p .out with waiters := w.waiters.erase p }
      | _ => .error .disabled
  | .copyOut p k =>
      match w.pc p with
      | .passed lbuf => do
          let r ← crash (mycdrvGenericRead w.ramdisk lbuf (w.fPos p) k)
          .ok { w.goto p .out with fPos := Function.update w.fPos p r.pos }
      | _ => .error .disabled
  | .write p buf k =>
      match w.pc p with
      | .out => do
          let r ← crash (mycdrvGenericWrite w.ramdisk buf (w.fPos p) k)
          .ok { w.goto p (.written r.ret) with
            ramdisk := r.ramdisk
            fPos := Function.update w.fPos p r.pos }
      | _ => .error .disabled
  | .up p =>
      match w.pc p with
      | .written _ => .ok ((w.goto p .out).release)
      | _ => .error .disabled

/-- No more reads have got the semaphore than writes have given it up. -/
def Released (w : World ι) : Prop := w.passes ≤ w.ups

/-- A read that arrives finds more than the credit that the semaphore has started with. -/
def FindsWrite (w : World ι) (e : Event ι) : Prop :=
  ∀ p lbuf, e = .down p → w.pc p = .arriving lbuf → 1 < w.count

structure Inv (w : World ι) : Prop where
  credit : 0 < w.count
  nobody : w.waiters = []
  balance : w.passes + w.count = w.ups + 1

variable {w w' : World ι} {e : Event ι}

omit [DecidableEq ι] in
theorem initial_inv (ramdisk : ℕ → UInt8) : Inv (initial ramdisk : World ι) :=
  ⟨Nat.one_pos, rfl, rfl⟩

omit [DecidableEq ι] in
theorem Inv.released (h : Inv w) : Released w := by
  have hcredit := h.credit
  have hbalance := h.balance
  unfold Released
  omega

theorem step_inv (hw : Inv w) (hC : FindsWrite w e) (h : step w e = .ok w') : Inv w' := by
  obtain ⟨hcredit, hnobody, hbalance⟩ := hw
  cases e with
  | read p lbuf =>
      simp only [step] at h
      split at h
      · cases h
        exact ⟨hcredit, hnobody, hbalance⟩
      · cases h
  | down p =>
      simp only [step] at h
      split at h
      · next lbuf hpc =>
          have hmore := hC p lbuf rfl hpc
          rw [if_pos hcredit] at h
          cases h
          refine ⟨Nat.sub_pos_of_lt hmore, hnobody, ?_⟩
          simp only [goto]
          omega
      · cases h
  | interrupt p =>
      simp only [step] at h
      split at h
      · cases h
        exact ⟨hcredit, by simp [hnobody], hbalance⟩
      · cases h
  | copyOut p k =>
      simp only [step] at h
      split at h
      · simp only [bind_eq_ok, Except.ok.injEq] at h
        obtain ⟨r, -, rfl⟩ := h
        exact ⟨hcredit, hnobody, hbalance⟩
      · cases h
  | write p buf k =>
      simp only [step] at h
      split at h
      · simp only [bind_eq_ok, Except.ok.injEq] at h
        obtain ⟨r, -, rfl⟩ := h
        exact ⟨hcredit, hnobody, hbalance⟩
      · cases h
  | up p =>
      simp only [step] at h
      split at h
      · cases h
        simp only [release, goto, hnobody]
        refine ⟨Nat.succ_pos _, rfl, ?_⟩
        simp only
        omega
      · cases h

/-- In every interleaving, signals included, each read that got the semaphore was
released by a write of its own exactly when every read that arrives finds more than the
initial credit. -/
theorem released_iff (ramdisk : ℕ → UInt8) (es : List (Event ι)) :
    Runs.Always step Released (initial ramdisk) es ↔
      Runs.Along step FindsWrite (initial ramdisk) es := by
  apply Runs.always_iff_along (I := Inv)
  · intro w hw
    exact hw.released
  · intro w e w' hw hC h
    exact step_inv hw hC h
  · intro w e hw hC
    simp only [FindsWrite] at hC
    push Not at hC
    obtain ⟨p, lbuf, rfl, hpc, hlast⟩ := hC
    have hcredit := hw.credit
    have hbalance := hw.balance
    refine ⟨{ w.goto p (.passed lbuf) with count := w.count - 1, passes := w.passes + 1 }, ?_, ?_⟩
    · simp only [step, hpc, if_pos hcredit]
    · simp only [Released, goto, not_le]
      omega
  · exact initial_inv ramdisk

/-- The first read passes on the initial credit, before any write. -/
theorem first_read_passes :
    ∃ w : World ℕ, Runs.exec step (initial fun _ => 0) [.read 1 4, .down 1] = .ok w ∧
      w.passes = 1 ∧ w.ups = 0 ∧
      ¬ Runs.Always step Released (initial fun _ => 0) [.read 1 4, .down (1 : ℕ)] := by
  refine ⟨_, rfl, rfl, rfl, ?_⟩
  apply Runs.not_always_of_exec rfl
  intro hreleased
  exact absurd (show (1 : ℕ) ≤ 0 from hreleased) (by decide)

end World

end LddSamples.Ioctl.Semaphore

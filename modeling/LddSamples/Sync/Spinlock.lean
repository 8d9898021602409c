import LddSamples.Kernel.Process
import LddSamples.Library.Lock
import LddSamples.Library.Runs

/-!
# sync_lab3_spinlock: threads that count under a lock

A thread takes `ldd_spinlock`, increments `ldd_global_variable`, which is a load and a store,
prints it and gives the lock back. No increment is lost, and every number is printed once.
-/

namespace LddSamples.Sync.Spinlock

open Kernel CArith Outcome

/-- Where a thread stands; `loaded` is what it has read of the variable. -/
inductive Pc
  | out
  | locked
  | loaded (value : ℕ)
  | stored
  | printed

/-- What the thread inside has done with the variable since the last message. -/
def Pc.Agrees (value count : ℕ) : Pc → Prop
  | .out => True
  | .locked => value = toUInt64 count
  | .loaded old => old = value ∧ value = toUInt64 count
  | .stored => value = toUInt64 (count + 1 : ℕ)
  | .printed => value = toUInt64 count

/-- `owner` is the thread that has the lock, and `printed` what all threads have printed. -/
structure World (ι : Type) where
  owner : Option ι
  globalVariable : ℕ
  pc : ι → Pc
  printed : List ℕ

inductive Event (ι : Type)
  | lock (p : ι)
  | load (p : ι)
  | store (p : ι)
  | print (p : ι)
  | unlock (p : ι)

namespace World

variable {ι : Type}

def initial : World ι := ⟨none, 0, fun _ => .out, []⟩

variable [DecidableEq ι]

def goto (w : World ι) (p : ι) (pc : Pc) : World ι := { w with pc := Function.update w.pc p pc }

def step (w : World ι) : Event ι → Except Stop (World ι)
  | .lock p =>
      match w.pc p, w.owner with
      | .out, none => .ok { w.goto p .locked with owner := some p }
      | _, _ => .error .disabled
  | .load p =>
      match w.pc p with
      | .locked => .ok (w.goto p (.loaded w.globalVariable))
      | _ => .error .disabled
  | .store p =>
      match w.pc p with
      | .loaded value => .ok { w.goto p .stored with globalVariable := toUInt64 (value + 1 : ℕ) }
      | _ => .error .disabled
  | .print p =>
      match w.pc p with
      | .stored => .ok { w.goto p .printed with printed := w.printed ++ [w.globalVariable] }
      | _ => .error .disabled
  | .unlock p =>
      match w.pc p with
      | .printed => .ok { w.goto p .out with owner := none }
      | _ => .error .disabled

/-- The numbers from 1 on, as an `unsigned long` shows them. -/
def numbers (n : ℕ) : List ℕ := (List.range n).map fun k => toUInt64 (k + 1 : ℕ)

/-- The messages of all threads count without a gap and without a repetition. -/
def Counts (w : World ι) : Prop := w.printed = numbers w.printed.length

def Inside (w : World ι) (p : ι) : Prop := w.pc p ≠ .out

structure Inv (w : World ι) : Prop where
  guards : Lock.Guards w.owner w.Inside
  counts : w.Counts
  free : w.owner = none → w.globalVariable = toUInt64 w.printed.length
  agrees : ∀ p, (w.pc p).Agrees w.globalVariable w.printed.length

variable {w w' : World ι} {e : Event ι}

omit [DecidableEq ι] in
theorem initial_inv : Inv (initial : World ι) where
  guards := Lock.guards_none fun _ h => h rfl
  counts := rfl
  free _ := rfl
  agrees _ := trivial

theorem numbers_succ (n : ℕ) : numbers (n + 1) = numbers n ++ [toUInt64 (n + 1 : ℕ)] := by
  rw [numbers, List.range_succ, List.map_append]
  rfl

/-- What is added to an `unsigned long` after it has wrapped is added before. -/
theorem toUInt64_succ (n : ℕ) : toUInt64 (toUInt64 n + 1 : ℕ) = toUInt64 (n + 1 : ℕ) := by
  unfold toUInt64
  omega

/-- A step of the thread that is inside: the others are outside, and nothing is asked of
them. -/
theorem Inv.within (h : Inv w) {p : ι} (hp : w.Inside p) (pc : Pc) (hpc : pc ≠ .out)
    {count : ℕ} {printed : List ℕ} (hcounts : printed = numbers printed.length)
    (hagrees : pc.Agrees count printed.length) :
    Inv { w.goto p pc with globalVariable := count, printed := printed } := by
  have howner := (h.guards p).mp hp
  have hothers : ∀ q, q ≠ p → (w.goto p pc).pc q = w.pc q := fun q hq =>
    Function.update_of_ne hq ..
  constructor
  · refine h.guards.congr fun q => ?_
    by_cases hq : q = p
    · simpa [Inside, goto, hq, hpc] using hp
    · simp [Inside, hothers q hq]
  · exact hcounts
  · intro hnone
    exact absurd (howner.symm.trans hnone) nofun
  · intro q
    by_cases hq : q = p
    · simpa [goto, hq] using hagrees
    · have hout : w.pc q = .out := by
        by_contra hinside
        exact hq (h.guards.unique hinside hp)
      simp only [hothers q hq, hout]
      trivial

theorem step_inv (hw : Inv w) (h : step w e = .ok w') : Inv w' := by
  have hcounts := hw.counts
  cases e with
  | lock p =>
      simp only [step] at h
      split at h
      · next hout hfree =>
          cases h
          have hagrees := hw.free hfree
          constructor
          · refine hw.guards.move (.acquires hfree (by simp [Inside, goto])) fun q hq => ?_
            simp [Inside, goto, Function.update_of_ne hq]
          · exact hcounts
          · exact nofun
          · intro q
            by_cases hq : q = p
            · simpa [goto, hq, Pc.Agrees] using hagrees
            · simpa [goto, Function.update_of_ne hq] using hw.agrees q
      · cases h
  | load p =>
      simp only [step] at h
      split at h
      · next hpc =>
          cases h
          have hagrees := hw.agrees p
          rw [hpc] at hagrees
          exact hw.within (p := p) (by simp [Inside, hpc]) (.loaded _) nofun hcounts ⟨rfl, hagrees⟩
      · cases h
  | store p =>
      simp only [step] at h
      split at h
      · next value hpc =>
          cases h
          have hagrees := hw.agrees p
          rw [hpc] at hagrees
          obtain ⟨rfl, hvariable⟩ := hagrees
          refine hw.within (p := p) (by simp [Inside, hpc]) .stored nofun hcounts ?_
          rw [Pc.Agrees, hvariable, toUInt64_succ]
          rfl
      · cases h
  | print p =>
      simp only [step] at h
      split at h
      · next hpc =>
          cases h
          have hagrees : w.globalVariable = toUInt64 (w.printed.length + 1 : ℕ) := by
            simpa [hpc, Pc.Agrees] using hw.agrees p
          refine hw.within (p := p) (by simp [Inside, hpc]) .printed nofun ?_ ?_
          · rw [List.length_append, List.length_singleton, numbers_succ, ← hcounts, hagrees]
          · rw [Pc.Agrees, List.length_append, List.length_singleton, ← hagrees]
            rfl
      · cases h
  | unlock p =>
      simp only [step] at h
      split at h
      · next hpc =>
          cases h
          have hagrees := hw.agrees p
          rw [hpc] at hagrees
          have hinside : w.Inside p := by simp [Inside, hpc]
          constructor
          · refine hw.guards.move (p := p) (.releases hinside (by simp [Inside, goto]))
              fun q hq => ?_
            simp [Inside, goto, Function.update_of_ne hq]
          · exact hcounts
          · exact fun _ => hagrees
          · intro q
            by_cases hq : q = p
            · simp [goto, hq, Pc.Agrees]
            · simpa [goto, Function.update_of_ne hq] using hw.agrees q
      · cases h

/-- In every interleaving of any number of threads, the messages so far are 1, 2, 3 and so
on. -/
theorem counts_always (es : List (Event ι)) :
    Runs.Always step Counts (initial : World ι) es :=
  Runs.always_of_inv (fun _ hw => hw.counts) (fun _ _ _ hw h => step_inv hw h) initial_inv es

end World

end LddSamples.Sync.Spinlock

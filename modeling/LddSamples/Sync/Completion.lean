import LddSamples.Char.Buffer
import LddSamples.Kernel.Process
import LddSamples.Library.Runs

/-!
# sync_lab4_completion: reads that announce themselves

After its copy a read completes `data_read_complete`, unless that is done already; a
thread waits for the completion again and again. The copy, the test and the completion
are separate steps of a read.
-/

namespace LddSamples.Sync.Completion

open Kernel Outcome LddSamples.Char

/-- Where `wait_function` stands in `wait_for_completion`. -/
inductive WaitPc
  | testing
  | asleep

/-- Where a read stands. `before` is how often the waiter had passed at the time of the
copy; no step depends on it. -/
inductive ReadPc
  | out
  | copied (rbytes : ℤ) (before : ℕ)
  | completing (rbytes : ℤ) (before : ℕ)

def ReadPc.before : ReadPc → Option ℕ
  | .out => none
  | .copied _ before => some before
  | .completing _ before => some before

/-- `count` is that of the completion. The last three fields are for the statements: how
often the waiter has passed, how often the completion was completed, and for each read
that has come to the end of its completion step how often the waiter had passed at its
copy. -/
structure World (ι : Type) where
  count : ℕ
  membuff : ℕ → UInt8
  fPos : ι → ℤ
  waiter : WaitPc
  pc : ι → ReadPc
  passes : ℕ
  completes : ℕ
  announced : List ℕ

inductive Event (ι : Type)
  | read (p : ι) (lbuf : ℕ) (k : ℕ)
  | test (p : ι)
  | complete (p : ι)
  | write (p : ι) (buf : List UInt8) (k : ℕ)
  | wait

namespace World

variable {ι : Type}

def initial (membuff : ℕ → UInt8) : World ι :=
  ⟨0, membuff, fun _ => 0, .testing, fun _ => .out, 0, 0, []⟩

variable [DecidableEq ι]

def goto (w : World ι) (p : ι) (pc : ReadPc) : World ι :=
  { w with pc := Function.update w.pc p pc }

/-- A read beyond the end of the device returns before it comes to the completion. -/
def step (w : World ι) : Event ι → Except Stop (World ι)
  | .read p lbuf k =>
      match w.pc p with
      | .out =>
          if BeyondEnd lbuf (w.fPos p) then .ok w
          else do
            let r ← crash (chardrvRead w.membuff lbuf (w.fPos p) k)
            .ok { w.goto p (.copied r.ret w.passes) with
              fPos := Function.update w.fPos p r.pos }
      | _ => .error .disabled
  | .test p =>
      match w.pc p with
      | .copied rbytes before =>
          if w.count ≠ 0 then .ok { w.goto p .out with announced := w.announced ++ [before] }
          else .ok (w.goto p (.completing rbytes before))
      | _ => .error .disabled
  | .complete p =>
      match w.pc p with
      | .completing _ before => .ok { w.goto p .out with
          count := w.count + 1
          waiter := .testing
          completes := w.completes + 1
          announced := w.announced ++ [before] }
      | _ => .error .disabled
  | .write p buf k =>
      match w.pc p with
      | .out => do
          let r ← crash (chardrvWrite w.membuff buf (w.fPos p) k)
          .ok { w with membuff := r.membuff, fPos := Function.update w.fPos p r.pos }
      | _ => .error .disabled
  | .wait =>
      match w.waiter with
      | .testing =>
          if 0 < w.count then .ok { w with count := w.count - 1, passes := w.passes + 1 }
          else .ok { w with waiter := .asleep }
      | .asleep => .error .disabled

/-- The waiter never passes without a completion, and when it is asleep with nothing to
take and no read is on its way, it has passed after the copy of every read. -/
def Announced (w : World ι) : Prop :=
  w.passes ≤ w.completes ∧
    (w.waiter = .asleep → w.count = 0 → (∀ p, w.pc p = .out) →
      ∀ before ∈ w.announced, before < w.passes)

/-- A token that is there when a read has copied is taken after that. -/
structure Inv (w : World ι) : Prop where
  balance : w.passes + w.count = w.completes
  copied : ∀ p before, (w.pc p).before = some before → before ≤ w.passes
  announced : ∀ before ∈ w.announced, before < w.passes + w.count

variable {w w' : World ι} {e : Event ι}

omit [DecidableEq ι] in
theorem initial_inv (membuff : ℕ → UInt8) : Inv (initial membuff : World ι) :=
  ⟨rfl, nofun, nofun⟩

omit [DecidableEq ι] in
theorem Inv.announces (h : Inv w) : Announced w := by
  refine ⟨?_, fun _ hcount _ before hmem => ?_⟩
  · have hbalance := h.balance
    omega
  · have hlt := h.announced before hmem
    omega

theorem Inv.goto_copied (h : Inv w) {p : ι} {pc : ReadPc}
    (hpc : ∀ before, pc.before = some before → before ≤ w.passes) (r : ι) (before : ℕ)
    (hr : ((w.goto p pc).pc r).before = some before) : before ≤ w.passes := by
  by_cases hrp : r = p
  · subst hrp
    simp only [goto, Function.update_self] at hr
    exact hpc before hr
  · simp only [goto, Function.update_of_ne hrp] at hr
    exact h.copied r before hr

theorem step_inv (hw : Inv w) (h : step w e = .ok w') : Inv w' := by
  have hbalance := hw.balance
  cases e with
  | read p lbuf k =>
      simp only [step] at h
      split at h
      · split at h
        · cases h
          exact hw
        · simp only [bind_eq_ok, Except.ok.injEq] at h
          obtain ⟨r, -, rfl⟩ := h
          refine ⟨hbalance, hw.goto_copied ?_, hw.announced⟩
          rintro before ⟨⟩
          exact le_refl _
      · cases h
  | test p =>
      simp only [step] at h
      split at h
      · next rbytes before hpc =>
          have hle := hw.copied p before (by rw [hpc]; rfl)
          split at h
          · -- the token that the read relies on is still to be taken
            cases h
            refine ⟨hbalance, hw.goto_copied ?_, fun b hb => ?_⟩
            · rintro _ ⟨⟩
            · simp only [goto]
              rcases List.mem_append.mp hb with hb | hb
              · exact hw.announced b hb
              · rw [List.mem_singleton.mp hb]
                omega
          · cases h
            refine ⟨hbalance, hw.goto_copied ?_, hw.announced⟩
            rintro b ⟨⟩
            exact hle
      · cases h
  | complete p =>
      simp only [step] at h
      split at h
      · next rbytes before hpc =>
          have hle := hw.copied p before (by rw [hpc]; rfl)
          cases h
          refine ⟨?_, hw.goto_copied ?_, fun b hb => ?_⟩
          · simp only [goto]
            omega
          · rintro _ ⟨⟩
          · simp only [goto]
            rcases List.mem_append.mp hb with hb | hb
            · have hlt := hw.announced b hb
              omega
            · rw [List.mem_singleton.mp hb]
              omega
      · cases h
  | write p buf k =>
      simp only [step] at h
      split at h
      · simp only [bind_eq_ok, Except.ok.injEq] at h
        obtain ⟨r, -, rfl⟩ := h
        exact ⟨hbalance, hw.copied, hw.announced⟩
      · cases h
  | wait =>
      simp only [step] at h
      split at h
      · split at h
        · next hsome =>
            cases h
            refine ⟨?_, fun p b hb => (hw.copied p b hb).trans (Nat.le_succ _), fun b hb => ?_⟩
            · simp only
              omega
            · have hlt := hw.announced b hb
              simp only
              omega
        · cases h
          exact ⟨hbalance, hw.copied, hw.announced⟩
      · cases h

/-- In every interleaving of any number of reads with the waiter, no read goes
unannounced. -/
theorem announced_always (membuff : ℕ → UInt8) (es : List (Event ι)) :
    Runs.Always step Announced (initial membuff) es := by
  apply Runs.always_of_inv (I := Inv) ?_ ?_ (initial_inv membuff)
  · intro w hw
    exact hw.announces
  · intro w e w' hw h
    exact step_inv hw h

end World

end LddSamples.Sync.Completion

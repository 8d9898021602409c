import LddSamples.Library.Runs
import LddSamples.Scullc.Invariant

/-!
# Whole runs of the scullc module

The devices, the module's variables and the open files, under any sequence of
opens, seeks, transfers and ioctl commands. Each call runs alone. The VFS refuses
negative positions before it calls the driver.
-/

namespace LddSamples.Scullc

open Kernel CArith Outcome

structure OpenFile where
  dev : Fin SCULLC_DEVS
  fPos : ℤ

structure System where
  module : Module
  devs : Fin SCULLC_DEVS → ScullcDev
  heap : Heap
  files : ℕ → Option OpenFile

/-- Transfers take the position of the file, or one of their own. -/
inductive Call
  | ioctl (cmd : ℕ) (arg : ℤ) (u : UserInt)
  | openDev (fd : ℕ) (i : Fin SCULLC_DEVS) (flags : ℕ) (env : Env)
  | llseek (fd : ℕ) (off : ℤ) (whence : ℕ)
  | read (fd : ℕ) (env : Env) (count : ℕ) (given : Option ℤ) (aio : Bool)
  | write (fd : ℕ) (env : Env) (buf : List UInt8) (given : Option ℤ) (aio : Bool)

namespace System

def initial : System := ⟨.initial, fun _ => .initial, ⟨0, []⟩, fun _ => none⟩

def advance (files : ℕ → Option OpenFile) (fd : ℕ) (file : OpenFile) (pos : ℤ) :
    Option ℤ → ℕ → Option OpenFile
  | some _ => files
  | none => Function.update files fd (some { file with fPos := pos })

/-- A transfer through `fd` as the VFS makes it. -/
def transfer (sys : System) (fd : ℕ) (given : Option ℤ)
    (go : ScullcDev → ℤ → Except Fault Transfer) : Except Fault System :=
  match sys.files fd with
  | none => .ok sys
  | some file =>
      if given.getD file.fPos < 0 then .ok sys
      else do
        let t ← go (sys.devs file.dev) (given.getD file.fPos)
        .ok { sys with
          devs := Function.update sys.devs file.dev t.dev
          heap := t.heap
          files := advance sys.files fd file t.pos given }

def step (sys : System) : Call → Except Fault System
  | .ioctl cmd arg u => .ok { sys with module := (scullcIoctl sys.module cmd arg u).2 }
  | .openDev fd i flags env => do
      let (ret, dev, heap) ← scullcOpen env sys.module sys.heap (sys.devs i) flags
      .ok { sys with
        devs := Function.update sys.devs i dev
        heap := heap
        files := if ret = 0 then Function.update sys.files fd (some ⟨i, 0⟩) else sys.files }
  | .llseek fd off whence =>
      match sys.files fd with
      | none => .ok sys
      | some file =>
          let r := scullcLlseek (sys.devs file.dev) file.fPos off whence
          .ok { sys with files := Function.update sys.files fd (some { file with fPos := r.2 }) }
  | .read fd env count given aio =>
      sys.transfer fd given fun dev pos =>
        scullcDoRead env sys.module sys.heap dev count pos aio
  | .write fd env buf given aio =>
      sys.transfer fd given fun dev pos =>
        scullcDoWrite env sys.module sys.heap dev buf buf.length pos aio

def Trims (sys : System) (call : Call) (i : Fin SCULLC_DEVS) : Prop :=
  ∃ fd flags env, call = .openDev fd i flags env ∧ flags % (O_ACCMODE + 1) = O_WRONLY ∧
    env.signalled = false ∧ (sys.devs i).vmas = 0

def Reads (sys : System) (call : Call) (i : Fin SCULLC_DEVS) (pos : ℤ) : Prop :=
  ∃ fd env count given aio file, call = .read fd env count given aio ∧ env.signalled = false ∧
    sys.files fd = some file ∧ file.dev = i ∧ given.getD file.fPos = pos ∧ 0 ≤ pos

/-- The call is a write of device `i` at `pos` that enters its critical section. -/
def Writes (sys : System) (call : Call) (i : Fin SCULLC_DEVS) (pos : ℤ) : Prop :=
  ∃ fd env buf given aio file, call = .write fd env buf given aio ∧ env.signalled = false ∧
    sys.files fd = some file ∧ file.dev = i ∧ given.getD file.fPos = pos ∧ 0 ≤ pos

variable {sys sys' : System} {call : Call}

theorem transfer_ok {fd : ℕ} {given : Option ℤ} {go : ScullcDev → ℤ → Except Fault Transfer}
    (h : sys.transfer fd given go = .ok sys') :
    sys' = sys ∨ ∃ file t, sys.files fd = some file ∧ 0 ≤ given.getD file.fPos ∧
      go (sys.devs file.dev) (given.getD file.fPos) = .ok t ∧ sys'.module = sys.module ∧
      sys'.devs = Function.update sys.devs file.dev t.dev ∧ sys'.heap = t.heap := by
  unfold transfer at h
  split at h
  · cases h
    exact .inl rfl
  · next file hfile =>
      split at h
      · cases h
        exact .inl rfl
      · next hpos =>
          obtain ⟨t, ht, h⟩ := bind_eq_ok.mp h
          cases h
          exact .inr ⟨file, t, hfile, Int.not_lt.mp hpos, ht, rfl, rfl, rfl⟩

/-- What one call does to one device: nothing to its data, or it empties the
device under the current variables, or it writes to it. -/
theorem step_devs (h : sys.step call = .ok sys') (i : Fin SCULLC_DEVS) :
    SameData (sys.devs i) (sys'.devs i) ∨
      (sys.Trims call i ∧ sys'.devs i = ((sys.devs i).lock.trimmed sys.module).unlock) ∨
      ∃ pos, sys.Writes call i pos ∧ ∃ env heap buf aio t,
        writeLocked env sys.module heap (sys.devs i).lock (sys.devs i).quantum (sys.devs i).qset
          buf buf.length pos aio = .ok t ∧ sys'.devs i = t.dev := by
  cases call with
  | ioctl cmd arg u =>
      cases h
      exact .inl (.refl _)
  | openDev fd j flags env =>
      simp only [step, bind_eq_ok, Prod.exists, Except.ok.injEq] at h
      obtain ⟨ret, dev, heap, hopen, rfl⟩ := h
      by_cases hij : i = j
      · subst hij
        simp only [Function.update_self]
        rcases scullcOpen_ok hopen with rfl | rfl | ⟨hflags, hsignal, hvmas, rfl⟩
        · exact .inl (.refl _)
        · exact .inl (SameData.lock _).unlock
        · exact .inr (.inl ⟨⟨fd, flags, env, rfl, hflags, hsignal, hvmas⟩, rfl⟩)
      · simp only [Function.update_of_ne hij]
        exact .inl (.refl _)
  | llseek fd off whence =>
      simp only [step] at h
      split at h <;> (cases h; exact .inl (.refl _))
  | read fd env count given aio =>
      simp only [step] at h
      rcases transfer_ok h with rfl | ⟨file, t, hfile, hpos, hread, -, hdevs, -⟩
      · exact .inl (.refl _)
      rw [hdevs]
      by_cases hi : i = file.dev
      · subst hi
        rw [Function.update_self]
        exact .inl (scullcDoRead_sameData hread)
      · rw [Function.update_of_ne hi]
        exact .inl (.refl _)
  | write fd env buf given aio =>
      simp only [step] at h
      rcases transfer_ok h with rfl | ⟨file, t, hfile, hpos, hwrite, -, hdevs, -⟩
      · exact .inl (.refl _)
      rw [hdevs]
      by_cases hi : i = file.dev
      · subst hi
        rw [Function.update_self]
        cases hsignal : env.signalled with
        | true =>
            simp only [scullcDoWrite, hsignal, if_true, Except.ok.injEq] at hwrite
            rw [← hwrite]
            exact .inl (.refl _)
        | false =>
            simp only [scullcDoWrite, hsignal, Bool.false_eq_true, if_false] at hwrite
            exact .inr (.inr ⟨_, ⟨fd, env, buf, given, aio, file, rfl, hsignal, hfile, rfl, rfl,
              hpos⟩, env, sys.heap, buf, aio, t, hwrite, rfl⟩)
      · rw [Function.update_of_ne hi]
        exact .inl (.refl _)

theorem step_module (h : sys.step call = .ok sys') :
    (sys'.module = sys.module ∧ ∀ cmd arg u, call ≠ .ioctl cmd arg u) ∨
      ∃ cmd arg u, call = .ioctl cmd arg u ∧
        sys'.module = (scullcIoctl sys.module cmd arg u).2 := by
  cases call with
  | ioctl cmd arg u =>
      cases h
      exact .inr ⟨cmd, arg, u, rfl, rfl⟩
  | openDev fd j flags env =>
      simp only [step, bind_eq_ok, Prod.exists, Except.ok.injEq] at h
      obtain ⟨_, _, _, -, rfl⟩ := h
      exact .inl ⟨rfl, by simp⟩
  | llseek fd off whence =>
      simp only [step] at h
      split at h <;> (cases h; exact .inl ⟨rfl, by simp⟩)
  | read fd env count given aio =>
      simp only [step] at h
      rcases transfer_ok h with rfl | ⟨_, _, -, -, -, hmodule, -⟩
      · exact .inl ⟨rfl, by simp⟩
      · exact .inl ⟨hmodule, by simp⟩
  | write fd env buf given aio =>
      simp only [step] at h
      rcases transfer_ok h with rfl | ⟨_, _, -, -, -, hmodule, -⟩
      · exact .inl ⟨rfl, by simp⟩
      · exact .inl ⟨hmodule, by simp⟩

theorem step_of_trims {i : Fin SCULLC_DEVS} (h : sys.Trims call i) (hdev : Shaped (sys.devs i)) :
    ∃ sys', sys.step call = .ok sys' ∧
      sys'.devs i = ((sys.devs i).lock.trimmed sys.module).unlock := by
  obtain ⟨fd, flags, env, rfl, hflags, hsignal, hvmas⟩ := h
  obtain ⟨heap, htrim⟩ := scullcTrim_returns sys.module sys.heap
    ((SameData.lock (sys.devs i)).shaped hdev) hvmas
  have hopen : scullcOpen env sys.module sys.heap (sys.devs i) flags =
      .ok (0, ((sys.devs i).lock.trimmed sys.module).unlock, heap) := by
    simp [scullcOpen, hflags, hsignal, htrim]
  refine ⟨_, by simp only [step, hopen, ok_bind]; rfl, Function.update_self ..⟩

end System

end LddSamples.Scullc

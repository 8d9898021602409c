import LddSamples.Kernel.Basic
import LddSamples.Library.Runs

/-!
# lab_all_interrupt.h: the lines of lab8_all_threaded, from `get_irqs` to `freeup_irqs`

A line that `request_irq` refuses keeps the flag -1 in its counter of interrupts, and
`freeup_irqs` goes by the sign of that counter. The counters are three arrays; a step
names the elements that it works on, so that the arrays can also be placed in memory.
-/

namespace LddSamples.Interrupts.AllLines

open Kernel CArith

/-- `nr_irqs`, and the lines that `request_irq` can share. -/
structure Config where
  nrIrqs : ℕ
  canShare : ℕ → Bool

inductive Counters
  | interrupts
  | bhs
  | nevents
  deriving DecidableEq

/-- The atomic operations on one element. -/
inductive Op
  | set (v : ℤ)
  | read
  | inc
  | dec

def Op.apply : Op → ℤ → ℤ
  | .set v, _ => toInt32 v
  | .read, v => v
  | .inc, v => atomicInc v
  | .dec, v => atomicDec v

structure Access where
  counters : Counters
  irq : ℕ
  op : Op

abbrev Arrays := Counters → ℕ → ℤ

def access (a : Arrays) (x : Access) : Arrays :=
  Function.update a x.counters
    (Function.update (a x.counters) x.irq (x.op.apply (a x.counters x.irq)))

/-- Where the module stands: in `get_irqs` before it sets the elements of a line, before
`request_irq`, and before it replaces the flag by 0; loaded; and in `freeup_irqs` at the
test of a line and in `free_irq`. -/
inductive BootPc
  | flag (irq : ℕ)
  | request (irq : ℕ)
  | zero (irq : ℕ)
  | loaded
  | test (irq : ℕ)
  | release (irq : ℕ)
  | unloaded

/-- Where `my_interrupt` of a line stands: before `atomic_inc(&nevents[irq])`, and before
it returns. -/
inductive TopPc
  | idle
  | counted
  | returning

/-- Where `thread_fun` of a line stands: before `atomic_inc(&bhs[irq])`, and before
`atomic_dec_and_test(&nevents[irq])`. -/
inductive BottomPc
  | waiting
  | counting
  | counted

/-- `registered` are the lines whose `request_irq` has succeeded, `counted` the interrupts
of a line since its flag was replaced by 0, and `freed` the calls of `free_irq`, all for
the statements. -/
structure Control where
  boot : BootPc
  live : ℕ → Bool
  top : ℕ → TopPc
  bottom : ℕ → BottomPc
  runThread : ℕ → Bool
  registered : ℕ → Bool
  counted : ℕ → ℕ
  freed : List ℕ

inductive Event
  | init
  | exit
  | freeup
  | arrive (i : ℕ)
  | queue (i : ℕ)
  | leave (i : ℕ)
  | start (i : ℕ)
  | credit (i : ℕ)
  | take (i : ℕ)

namespace Control

def initial : Control :=
  ⟨.flag 0, fun _ => false, fun _ => .idle, fun _ => .waiting, fun _ => false, fun _ => false,
    fun _ => 0, []⟩

/-- Where a step goes and which elements it works on. `free_irq` waits for the handler
and the thread of its line. -/
def next (cfg : Config) (c : Control) (a : Arrays) : Event → Except Unit (Control × List Access)
  | .init =>
      match c.boot with
      | .flag irq =>
          if irq < cfg.nrIrqs then .ok ({ c with boot := .request irq },
            [⟨.interrupts, irq, .set (-1)⟩, ⟨.bhs, irq, .set 0⟩, ⟨.nevents, irq, .set 0⟩])
          else .ok ({ c with boot := .loaded }, [])
      | .request irq =>
          if cfg.canShare irq then .ok ({ c with
            boot := .zero irq
            live := Function.update c.live irq true
            registered := Function.update c.registered irq true }, [])
          else .ok ({ c with boot := .flag (irq + 1) }, [])
      | .zero irq => .ok ({ c with
          boot := .flag (irq + 1)
          counted := Function.update c.counted irq 0 }, [⟨.interrupts, irq, .set 0⟩])
      | _ => .error ()
  | .exit =>
      match c.boot with
      | .loaded => .ok ({ c with boot := .test 0 }, [])
      | _ => .error ()
  | .freeup =>
      match c.boot with
      | .test irq =>
          if irq < cfg.nrIrqs then .ok ({ c with
            boot := if 0 ≤ a .interrupts irq then .release irq else .test (irq + 1) },
            [⟨.interrupts, irq, .read⟩])
          else .ok ({ c with boot := .unloaded }, [])
      | .release irq =>
          match c.top irq, c.bottom irq with
          | .idle, .waiting => .ok ({ c with
              boot := .test (irq + 1)
              live := Function.update c.live irq false
              freed := c.freed ++ [irq] }, [])
          | _, _ => .error ()
      | _ => .error ()
  | .arrive i =>
      match c.live i, c.top i with
      | true, .idle => .ok ({ c with
          top := Function.update c.top i .counted
          counted := Function.update c.counted i (c.counted i + 1) }, [⟨.interrupts, i, .inc⟩])
      | _, _ => .error ()
  | .queue i =>
      match c.top i with
      | .counted => .ok ({ c with top := Function.update c.top i .returning },
          [⟨.nevents, i, .inc⟩])
      | _ => .error ()
  | .leave i =>
      match c.top i with
      | .returning => .ok ({ c with
          top := Function.update c.top i .idle
          runThread := Function.update c.runThread i true }, [])
      | _ => .error ()
  | .start i =>
      match c.live i, c.bottom i, c.runThread i with
      | true, .waiting, true => .ok ({ c with
          bottom := Function.update c.bottom i .counting
          runThread := Function.update c.runThread i false }, [])
      | _, _, _ => .error ()
  | .credit i =>
      match c.bottom i with
      | .counting => .ok ({ c with bottom := Function.update c.bottom i .counted },
          [⟨.bhs, i, .inc⟩])
      | _ => .error ()
  | .take i =>
      match c.bottom i with
      | .counted => .ok ({ c with
          bottom := Function.update c.bottom i
            (if atomicDec (a .nevents i) = 0 then .waiting else .counting) },
          [⟨.nevents, i, .dec⟩])
      | _ => .error ()

end Control

structure State where
  control : Control
  arrays : Arrays

namespace State

/-- Before `get_irqs` the arrays hold whatever `kmalloc` found there. -/
def loaded (arrays : Arrays) : State := ⟨.initial, arrays⟩

def step (cfg : Config) (s : State) (e : Event) : Except Unit State := do
  let (control, accesses) ← s.control.next cfg s.arrays e
  .ok ⟨control, accesses.foldl access s.arrays⟩

end State

/-- The lines that `freeup_irqs` is done with. -/
def BootPc.Passed : BootPc → ℕ → Prop
  | .test irq, i => i < irq
  | .release irq, i => i < irq
  | .unloaded, _ => True
  | _, _ => False

/-- `free_irq` has been called once for each registered line that `freeup_irqs` is done
with, and for no other line. -/
structure Control.FreedOnce (c : Control) : Prop where
  once : ∀ i, c.registered i = true → c.boot.Passed i → c.freed.count i = 1
  never : ∀ i, ¬ (c.registered i = true ∧ c.boot.Passed i) → c.freed.count i = 0

namespace State

def FreedOnce (s : State) : Prop := s.control.FreedOnce

/-- When `freeup_irqs` tests a registered line, the number of its interrupts does not have
the sign bit set in 32 bits. -/
def CountFits (cfg : Config) (s : State) (e : Event) : Prop :=
  ∀ irq, e = .freeup → s.control.boot = .test irq → irq < cfg.nrIrqs →
    s.control.registered irq = true → s.control.counted irq % 4294967296 < 2147483648

end State

/-- The lines whose elements have been set. -/
def BootPc.Flagged (n : ℕ) : BootPc → ℕ → Prop
  | .flag irq, i => i < irq
  | .request irq, i => i ≤ irq
  | .zero irq, i => i ≤ irq
  | _, i => i < n

def BootPc.Requested : BootPc → ℕ → Prop
  | .flag irq, i => i < irq
  | .request irq, i => i < irq
  | .zero irq, i => i ≤ irq
  | _, _ => True

/-- The line that is being worked on exists. -/
def BootPc.Within (n : ℕ) : BootPc → Prop
  | .request irq => irq < n
  | .zero irq => irq < n
  | .release irq => irq < n
  | _ => True

/-! ## Accesses to the arrays -/

@[simp] theorem access_other (a : Arrays) {counters counters' : Counters} (irq : ℕ) (op : Op)
    (h : counters' ≠ counters) : access a ⟨counters, irq, op⟩ counters' = a counters' :=
  Function.update_of_ne h _ _

@[simp] theorem access_self (a : Arrays) (counters : Counters) (irq : ℕ) (op : Op) :
    access a ⟨counters, irq, op⟩ counters =
      Function.update (a counters) irq (op.apply (a counters irq)) :=
  Function.update_self ..

@[simp] theorem access_read (a : Arrays) (counters : Counters) (irq : ℕ) :
    access a ⟨counters, irq, .read⟩ = a := by
  simp [access, Op.apply]

/-! ## Where the lines stand -/

namespace Control

variable {cfg : Config} {c c' : Control} {a : Arrays} {e : Event} {accesses : List Access} {i : ℕ}

/-- What holds of the lines whatever the arrays say. -/
structure Lines (n : ℕ) (c : Control) : Prop where
  within : c.boot.Within n
  registered : ∀ i, c.registered i = true → i < n ∧ c.boot.Requested i
  zeroed : ∀ i, c.boot = .zero i → c.registered i = true
  live : ∀ i, c.live i = true → c.registered i = true
  busy : ∀ i, c.live i = false → c.top i = .idle ∧ c.bottom i = .waiting

theorem initial_lines (n : ℕ) : initial.Lines n where
  within := trivial
  registered _ := nofun
  zeroed _ := nofun
  live _ := nofun
  busy _ _ := ⟨rfl, rfl⟩

theorem Lines.requested {n : ℕ} {boot : BootPc} (h : c.Lines n) (hboot : c.boot = boot) (i : ℕ)
    (hreg : c.registered i = true) : i < n ∧ boot.Requested i := by
  subst hboot
  exact h.registered i hreg

theorem Lines.working {n : ℕ} {boot : BootPc} (h : c.Lines n) (hboot : c.boot = boot) :
    boot.Within n := by
  subst hboot
  exact h.within

theorem Lines.live_of_top {n : ℕ} (h : c.Lines n) (htop : c.top i ≠ .idle) : c.live i = true := by
  by_contra hdead
  exact htop (h.busy i (by simpa using hdead)).1

theorem Lines.live_of_bottom {n : ℕ} (h : c.Lines n) (hbottom : c.bottom i ≠ .waiting) :
    c.live i = true := by
  by_contra hdead
  exact hbottom (h.busy i (by simpa using hdead)).2

/-- A step of the handler or the thread of a live line changes its own places, and counts
one interrupt at most. -/
structure Handles (i : ℕ) (c c' : Control) (accesses : List Access) : Prop where
  alive : c.live i = true
  boot : c'.boot = c.boot
  live : c'.live = c.live
  registered : c'.registered = c.registered
  freed : c'.freed = c.freed
  others : ∀ j, j ≠ i → c'.top j = c.top j ∧ c'.bottom j = c.bottom j
  own : ∀ x ∈ accesses, x.irq = i
  count : c'.counted = c.counted ∧ (∀ x ∈ accesses, x.counters ≠ .interrupts) ∨
    c'.counted = Function.update c.counted i (c.counted i + 1) ∧
      accesses = [⟨.interrupts, i, .inc⟩]

/-- A step is one of the handler or the thread of a line, or one of the module. -/
theorem Lines.handles {n : ℕ} (h : c.Lines n) (hnext : c.next cfg a e = .ok (c', accesses)) :
    (e = .init ∨ e = .exit ∨ e = .freeup) ∨ ∃ i, Handles i c c' accesses := by
  cases e with
  | init => exact .inl (.inl rfl)
  | exit => exact .inl (.inr (.inl rfl))
  | freeup => exact .inl (.inr (.inr rfl))
  | arrive i =>
      simp only [next] at hnext
      split at hnext
      case h_2 => cases hnext
      case h_1 halive htop =>
        cases hnext
        exact .inr ⟨i, halive, rfl, rfl, rfl, rfl,
          fun j hne => ⟨Function.update_of_ne hne _ _, rfl⟩, by simp, .inr ⟨rfl, rfl⟩⟩
  | queue i =>
      simp only [next] at hnext
      split at hnext
      case h_2 => cases hnext
      case h_1 htop =>
        cases hnext
        exact .inr ⟨i, h.live_of_top (by simp [htop]), rfl, rfl, rfl, rfl,
          fun j hne => ⟨Function.update_of_ne hne _ _, rfl⟩, by simp, .inl ⟨rfl, by simp⟩⟩
  | leave i =>
      simp only [next] at hnext
      split at hnext
      case h_2 => cases hnext
      case h_1 htop =>
        cases hnext
        exact .inr ⟨i, h.live_of_top (by simp [htop]), rfl, rfl, rfl, rfl,
          fun j hne => ⟨Function.update_of_ne hne _ _, rfl⟩, by simp, .inl ⟨rfl, by simp⟩⟩
  | start i =>
      simp only [next] at hnext
      split at hnext
      case h_2 => cases hnext
      case h_1 halive hbottom hwoken =>
        cases hnext
        exact .inr ⟨i, halive, rfl, rfl, rfl, rfl,
          fun j hne => ⟨rfl, Function.update_of_ne hne _ _⟩, by simp, .inl ⟨rfl, by simp⟩⟩
  | credit i =>
      simp only [next] at hnext
      split at hnext
      case h_2 => cases hnext
      case h_1 hbottom =>
        cases hnext
        exact .inr ⟨i, h.live_of_bottom (by simp [hbottom]), rfl, rfl, rfl, rfl,
          fun j hne => ⟨rfl, Function.update_of_ne hne _ _⟩, by simp, .inl ⟨rfl, by simp⟩⟩
  | take i =>
      simp only [next] at hnext
      split at hnext
      case h_2 => cases hnext
      case h_1 hbottom =>
        cases hnext
        exact .inr ⟨i, h.live_of_bottom (by simp [hbottom]), rfl, rfl, rfl, rfl,
          fun j hne => ⟨rfl, Function.update_of_ne hne _ _⟩, by simp, .inl ⟨rfl, by simp⟩⟩

theorem Handles.lines {n : ℕ} (h : c.Lines n) (hstep : Handles i c c' accesses) :
    c'.Lines n ∧ ∀ x ∈ accesses, x.irq < n := by
  refine ⟨⟨?_, ?_, ?_, ?_, fun j hdead => ?_⟩, fun x hx => ?_⟩
  · rw [hstep.boot]
    exact h.within
  · rw [hstep.registered, hstep.boot]
    exact h.registered
  · rw [hstep.registered, hstep.boot]
    exact h.zeroed
  · rw [hstep.live, hstep.registered]
    exact h.live
  · rw [hstep.live] at hdead
    have hne : j ≠ i := by
      rintro rfl
      rw [hstep.alive] at hdead
      cases hdead
    rw [(hstep.others j hne).1, (hstep.others j hne).2]
    exact h.busy j hdead
  · rw [hstep.own x hx]
    exact (h.registered i (h.live i hstep.alive)).1

theorem init_lines (h : c.Lines cfg.nrIrqs) (hnext : c.next cfg a .init = .ok (c', accesses)) :
    c'.Lines cfg.nrIrqs ∧ ∀ x ∈ accesses, x.irq < cfg.nrIrqs := by
  cases hboot : c.boot with
  | flag irq =>
      have hnew := h.requested hboot
      simp only [next, hboot] at hnext
      split at hnext
      · next hirq =>
          cases hnext
          exact ⟨⟨hirq, hnew, by simp, h.live, h.busy⟩, by simp [hirq]⟩
      · cases hnext
        exact ⟨⟨trivial, fun i hreg => ⟨(hnew i hreg).1, trivial⟩, by simp, h.live, h.busy⟩,
          by simp⟩
  | request irq =>
      have hnew := h.requested hboot
      have hirq : irq < cfg.nrIrqs := h.working hboot
      simp only [next, hboot] at hnext
      split at hnext
      · cases hnext
        refine ⟨⟨hirq, fun i hreg => ?_, by simp, fun i hlive => ?_, fun i hdead => ?_⟩, by simp⟩
        · by_cases heq : i = irq
          · exact ⟨heq ▸ hirq, heq.le⟩
          · simp only [Function.update_of_ne heq] at hreg
            exact ⟨(hnew i hreg).1, (hnew i hreg).2.le⟩
        · by_cases heq : i = irq
          · simp [heq]
          · simp only [Function.update_of_ne heq] at hlive ⊢
            exact h.live i hlive
        · by_cases heq : i = irq
          · simp [heq] at hdead
          · simp only [Function.update_of_ne heq] at hdead
            exact h.busy i hdead
      · cases hnext
        exact ⟨⟨trivial, fun i hreg => ⟨(hnew i hreg).1, Nat.lt_succ_of_lt (hnew i hreg).2⟩,
          by simp, h.live, h.busy⟩, by simp⟩
  | zero irq =>
      have hirq : irq < cfg.nrIrqs := h.working hboot
      have hnew := h.requested hboot
      simp only [next, hboot] at hnext
      cases hnext
      exact ⟨⟨trivial, fun i hreg => ⟨(hnew i hreg).1, Nat.lt_succ_of_le (hnew i hreg).2⟩,
        by simp, h.live, h.busy⟩, by simp [hirq]⟩
  | _ => simp [next, hboot] at hnext

theorem freeup_lines (h : c.Lines cfg.nrIrqs) (hnext : c.next cfg a .freeup = .ok (c', accesses)) :
    c'.Lines cfg.nrIrqs ∧ ∀ x ∈ accesses, x.irq < cfg.nrIrqs := by
  cases hboot : c.boot with
  | test irq =>
      simp only [next, hboot] at hnext
      split at hnext
      · next hirq =>
          cases hnext
          refine ⟨⟨?_, fun i hreg => ⟨(h.registered i hreg).1, ?_⟩, fun i hzero => ?_, h.live,
            h.busy⟩, by simp [hirq]⟩
          · dsimp only
            split
            · exact hirq
            · trivial
          · dsimp only
            split <;> trivial
          · dsimp only at hzero
            split at hzero <;> cases hzero
      · cases hnext
        exact ⟨⟨trivial, fun i hreg => ⟨(h.registered i hreg).1, trivial⟩, by simp, h.live,
          h.busy⟩, by simp⟩
  | release irq =>
      simp only [next, hboot] at hnext
      split at hnext
      case h_2 => cases hnext
      case h_1 htop hbottom =>
        cases hnext
        refine ⟨⟨trivial, fun i hreg => ⟨(h.registered i hreg).1, trivial⟩, by simp,
          fun i hlive => ?_, fun i hdead => ?_⟩, by simp⟩
        · by_cases heq : i = irq
          · simp [heq] at hlive
          · simp only [Function.update_of_ne heq] at hlive
            exact h.live i hlive
        · by_cases heq : i = irq
          · rw [heq]
            exact ⟨htop, hbottom⟩
          · simp only [Function.update_of_ne heq] at hdead
            exact h.busy i hdead
  | _ => simp [next, hboot] at hnext

/-- Every step keeps the lines in order, and works on elements of the lines there are. -/
theorem next_lines (h : c.Lines cfg.nrIrqs) (hnext : c.next cfg a e = .ok (c', accesses)) :
    c'.Lines cfg.nrIrqs ∧ ∀ x ∈ accesses, x.irq < cfg.nrIrqs := by
  rcases h.handles hnext with (rfl | rfl | rfl) | ⟨i, hstep⟩
  · exact init_lines h hnext
  · cases hboot : c.boot with
    | loaded =>
        simp only [next, hboot] at hnext
        cases hnext
        exact ⟨⟨trivial, fun i hreg => ⟨(h.registered i hreg).1, trivial⟩, by simp, h.live,
          h.busy⟩, by simp⟩
    | _ => simp [next, hboot] at hnext
  · exact freeup_lines h hnext
  · exact hstep.lines h

end Control

/-! ## What the counters say -/

namespace State

variable {cfg : Config} {s s' : State} {e : Event}

/-- The counter of a line that is not registered keeps the flag, and that of a registered
line counts its interrupts in 32 bits. -/
structure Inv (cfg : Config) (s : State) : Prop where
  lines : s.control.Lines cfg.nrIrqs
  chosen : ∀ i, s.control.boot = .release i → s.control.registered i = true
  flag : ∀ i, s.control.boot.Flagged cfg.nrIrqs i → s.control.registered i = false →
    s.arrays .interrupts i = -1
  count : ∀ i, s.control.registered i = true → s.control.boot ≠ .zero i →
    s.arrays .interrupts i = toInt32 (s.control.counted i)
  freed : FreedOnce s

theorem loaded_inv (cfg : Config) (arrays : Arrays) : Inv cfg (loaded arrays) where
  lines := Control.initial_lines cfg.nrIrqs
  chosen _ := nofun
  flag _ := nofun
  count _ := nofun
  freed := ⟨nofun, fun _ _ => rfl⟩

theorem step_eq_ok : step cfg s e = .ok s' ↔ ∃ accesses,
    s.control.next cfg s.arrays e = .ok (s'.control, accesses) ∧
      s'.arrays = accesses.foldl access s.arrays := by
  cases hnext : s.control.next cfg s.arrays e with
  | error u => simp [step, hnext, bind, Except.bind]
  | ok result =>
      obtain ⟨control, accesses⟩ := result
      obtain ⟨control', arrays'⟩ := s'
      simp only [step, hnext, Outcome.ok_bind, Except.ok.injEq, State.mk.injEq, Prod.mk.injEq]
      constructor
      · rintro ⟨rfl, rfl⟩
        exact ⟨accesses, ⟨rfl, rfl⟩, rfl⟩
      · rintro ⟨_, ⟨rfl, rfl⟩, rfl⟩
        exact ⟨rfl, rfl⟩

/-- What the invariant says before `freeup_irqs`. -/
theorem Inv.unfreed (h : Inv cfg s) (hnot : ∀ i, ¬ s.control.boot.Passed i) (i : ℕ) :
    s.control.freed.count i = 0 :=
  h.freed.never i fun hboth => hnot i hboth.2

/-- What the invariant says of the counters and of `free_irq` at one place of the module. -/
theorem Inv.flagged {boot : BootPc} (h : Inv cfg s) (hboot : s.control.boot = boot) (i : ℕ)
    (hflagged : boot.Flagged cfg.nrIrqs i) (hnot : s.control.registered i = false) :
    s.arrays .interrupts i = -1 := by
  subst hboot
  exact h.flag i hflagged hnot

theorem Inv.once {boot : BootPc} (h : Inv cfg s) (hboot : s.control.boot = boot) (i : ℕ)
    (hreg : s.control.registered i = true) (hpassed : boot.Passed i) :
    s.control.freed.count i = 1 := by
  subst hboot
  exact h.freed.once i hreg hpassed

theorem Inv.never {boot : BootPc} (h : Inv cfg s) (hboot : s.control.boot = boot) (i : ℕ)
    (hnot : ¬ (s.control.registered i = true ∧ boot.Passed i)) :
    s.control.freed.count i = 0 := by
  subst hboot
  exact h.freed.never i hnot

theorem Inv.counted (h : Inv cfg s) (hzero : ∀ i, s.control.boot ≠ .zero i) (i : ℕ)
    (hreg : s.control.registered i = true) :
    s.arrays .interrupts i = toInt32 (s.control.counted i) :=
  h.count i hreg (hzero i)

/-- An access to another array leaves the counters of interrupts alone. -/
theorem foldl_access_other (a : Arrays) (accesses : List Access)
    (h : ∀ x ∈ accesses, x.counters ≠ .interrupts) :
    accesses.foldl access a .interrupts = a .interrupts := by
  induction accesses generalizing a with
  | nil => rfl
  | cons x accesses ih =>
      rw [List.foldl_cons, ih _ fun y hy => h y (List.mem_cons_of_mem _ hy)]
      exact access_other a x.irq x.op (h x List.mem_cons_self).symm

theorem handles_inv {i : ℕ} {accesses : List Access} (hi : Inv cfg s)
    (hstep : Control.Handles i s.control s'.control accesses)
    (harrays : s'.arrays = accesses.foldl access s.arrays) : Inv cfg s' := by
  refine ⟨(hstep.lines hi.lines).1, ?_, fun j hflagged hnot => ?_, fun j hreg hzero => ?_,
    ⟨?_, ?_⟩⟩
  · rw [hstep.boot, hstep.registered]
    exact hi.chosen
  · rw [hstep.boot] at hflagged
    rw [hstep.registered] at hnot
    have hne : j ≠ i := by
      rintro rfl
      rw [hi.lines.live j hstep.alive] at hnot
      cases hnot
    rcases hstep.count with ⟨-, hother⟩ | ⟨-, rfl⟩
    · rw [harrays, foldl_access_other _ _ hother]
      exact hi.flag j hflagged hnot
    · rw [harrays, List.foldl_cons, List.foldl_nil, access_self, Function.update_of_ne hne]
      exact hi.flag j hflagged hnot
  · rw [hstep.registered] at hreg
    rw [hstep.boot] at hzero
    have hold := hi.count j hreg hzero
    rcases hstep.count with ⟨hcounted, hother⟩ | ⟨hcounted, rfl⟩
    · rw [harrays, foldl_access_other _ _ hother, hcounted, hold]
    · rw [harrays, List.foldl_cons, List.foldl_nil, access_self, hcounted]
      by_cases heq : j = i
      · rw [heq, Function.update_self, Function.update_self, ← heq, Op.apply, hold, atomicInc,
          toInt32_toInt32_add, Nat.cast_succ]
      · rw [Function.update_of_ne heq, Function.update_of_ne heq, hold]
  · rw [hstep.registered, hstep.boot, hstep.freed]
    exact hi.freed.once
  · rw [hstep.registered, hstep.boot, hstep.freed]
    exact hi.freed.never

/-! ## Steps of `get_irqs` and `freeup_irqs` -/

/-- A step of the control, and the accesses that it makes. -/
theorem Inv.step_parts (hi : Inv cfg s) (h : step cfg s e = .ok s') : ∃ control accesses,
    s.control.next cfg s.arrays e = .ok (control, accesses) ∧ control.Lines cfg.nrIrqs ∧
      s' = ⟨control, accesses.foldl access s.arrays⟩ := by
  obtain ⟨control, arrays⟩ := s'
  obtain ⟨accesses, hnext, harrays⟩ := step_eq_ok.mp h
  obtain rfl : arrays = _ := harrays
  exact ⟨control, accesses, hnext, (Control.next_lines hi.lines hnext).1, rfl⟩

theorem flag_inv {irq : ℕ} (hi : Inv cfg s) (hboot : s.control.boot = .flag irq)
    (h : step cfg s .init = .ok s') : Inv cfg s' := by
  obtain ⟨control, accesses, hnext, hlines, rfl⟩ := hi.step_parts h
  have hnone := hi.unfreed (by simp [hboot, BootPc.Passed])
  have hcount := hi.counted (by simp [hboot])
  have hflag := hi.flagged hboot
  have hnew : ∀ i, s.control.registered i = true → i < irq := fun i hreg =>
    (hi.lines.requested hboot i hreg).2
  simp only [Control.next, hboot] at hnext
  split at hnext
  · next hirq =>
      cases hnext
      refine ⟨hlines, by simp, fun i hle hnot => ?_, fun i hreg _ => ?_,
        ⟨fun i _ => False.elim, fun i _ => hnone i⟩⟩
      · by_cases heq : i = irq
        · simp [heq, Op.apply]
          rfl
        · have hold := hflag i (lt_of_le_of_ne hle heq) hnot
          simpa [heq, Op.apply] using hold
      · have heq : i ≠ irq := (hnew i hreg).ne
        simpa [heq, Op.apply] using hcount i hreg
  · next hirq =>
      cases hnext
      refine ⟨hlines, by simp, fun i hlt hnot => ?_, fun i hreg _ => hcount i hreg,
        ⟨fun i _ => False.elim, fun i _ => hnone i⟩⟩
      have hlt : i < cfg.nrIrqs := hlt
      exact hflag i (hlt.trans_le (not_lt.mp hirq)) hnot

theorem request_inv {irq : ℕ} (hi : Inv cfg s) (hboot : s.control.boot = .request irq)
    (h : step cfg s .init = .ok s') : Inv cfg s' := by
  obtain ⟨control, accesses, hnext, hlines, rfl⟩ := hi.step_parts h
  have hnone := hi.unfreed (by simp [hboot, BootPc.Passed])
  have hcount := hi.counted (by simp [hboot])
  have hflag := hi.flagged hboot
  simp only [Control.next, hboot] at hnext
  split at hnext
  · cases hnext
    refine ⟨hlines, by simp, fun i hle hnot => ?_, fun i hreg hzero => ?_,
      ⟨fun i _ => False.elim, fun i _ => hnone i⟩⟩
    · by_cases heq : i = irq
      · simp [heq] at hnot
      · simp only [Function.update_of_ne heq] at hnot
        exact hflag i hle hnot
    · by_cases heq : i = irq
      · exact absurd (congrArg BootPc.zero heq.symm) hzero
      · simp only [Function.update_of_ne heq] at hreg
        exact hcount i hreg
  · cases hnext
    refine ⟨hlines, by simp, fun i hlt hnot => ?_, fun i hreg _ => hcount i hreg,
      ⟨fun i _ => False.elim, fun i _ => hnone i⟩⟩
    exact hflag i (Nat.le_of_lt_succ hlt) hnot

theorem zero_inv {irq : ℕ} (hi : Inv cfg s) (hboot : s.control.boot = .zero irq)
    (h : step cfg s .init = .ok s') : Inv cfg s' := by
  obtain ⟨control, accesses, hnext, hlines, rfl⟩ := hi.step_parts h
  have hnone := hi.unfreed (by simp [hboot, BootPc.Passed])
  have hzeroed := hi.lines.zeroed irq hboot
  have hflag := hi.flagged hboot
  simp only [Control.next, hboot] at hnext
  cases hnext
  refine ⟨hlines, by simp, fun i hlt hnot => ?_, fun i hreg _ => ?_,
    ⟨fun i _ => False.elim, fun i _ => hnone i⟩⟩
  · have heq : i ≠ irq := by
      rintro rfl
      rw [hzeroed] at hnot
      cases hnot
    simpa [heq, Op.apply] using hflag i (Nat.le_of_lt_succ hlt) hnot
  · by_cases heq : i = irq
    · simp [heq, Op.apply]
    · simpa [heq, Op.apply] using hi.count i hreg (by simpa [hboot] using Ne.symm heq)

theorem init_inv (hi : Inv cfg s) (h : step cfg s .init = .ok s') : Inv cfg s' := by
  cases hboot : s.control.boot with
  | flag irq => exact flag_inv hi hboot h
  | request irq => exact request_inv hi hboot h
  | zero irq => exact zero_inv hi hboot h
  | _ => simp [step, Control.next, hboot, bind, Except.bind] at h

theorem exit_inv (hi : Inv cfg s) (h : step cfg s .exit = .ok s') : Inv cfg s' := by
  obtain ⟨control, accesses, hnext, hlines, rfl⟩ := hi.step_parts h
  cases hboot : s.control.boot with
  | loaded =>
      have hnone := hi.unfreed (by simp [hboot, BootPc.Passed])
      have hcount := hi.counted (by simp [hboot])
      have hflag := hi.flagged hboot
      simp only [Control.next, hboot] at hnext
      cases hnext
      exact ⟨hlines, by simp, hflag, fun i hreg _ => hcount i hreg,
        ⟨fun i _ hlt => absurd hlt (Nat.not_lt_zero i), fun i _ => hnone i⟩⟩
  | _ => simp [Control.next, hboot] at hnext

/-- At its test a line is passed over, or is to be freed. -/
theorem test_inv {irq : ℕ} (hi : Inv cfg s) (hC : CountFits cfg s .freeup)
    (hboot : s.control.boot = .test irq) (h : step cfg s .freeup = .ok s') : Inv cfg s' := by
  obtain ⟨control, accesses, hnext, hlines, rfl⟩ := hi.step_parts h
  have hcount := hi.counted (by simp [hboot])
  have hflag := hi.flagged hboot
  have honce := hi.once hboot
  have hnever := hi.never hboot
  have hfits := hC irq rfl hboot
  simp only [Control.next, hboot] at hnext
  split at hnext
  · next hirq =>
      -- the sign of the counter tells whether the line has been registered
      have hsign : 0 ≤ s.arrays .interrupts irq ↔ s.control.registered irq = true := by
        cases hreg : s.control.registered irq with
        | true =>
            have hlow := hfits hirq hreg
            rw [hcount irq hreg, toInt32_nonneg_iff]
            simp only [iff_true]
            omega
        | false => simp [hflag irq hirq hreg]
      cases hnext
      simp only [List.foldl_cons, List.foldl_nil, access_read]
      refine ⟨hlines, fun i hrelease => ?_, ?_, fun i hreg _ => hcount i hreg, ?_⟩
      · dsimp only at hrelease
        split at hrelease
        · next hge =>
            cases hrelease
            exact hsign.mp hge
        · cases hrelease
      · dsimp only
        split <;> exact hflag
      · by_cases hreg : s.control.registered irq = true
        · simp only [if_pos (hsign.mpr hreg)]
          exact ⟨honce, hnever⟩
        · simp only [if_neg (mt hsign.mp hreg)]
          refine ⟨fun i hreg' hle => ?_, fun i hnot => ?_⟩
          · refine honce i hreg' (lt_of_le_of_ne (Nat.le_of_lt_succ hle) ?_)
            rintro rfl
            exact hreg hreg'
          · apply hnever
            rintro ⟨hreg', hlt⟩
            exact hnot ⟨hreg', Nat.lt_succ_of_lt hlt⟩
  · next hirq =>
      cases hnext
      refine ⟨hlines, by simp, hflag, fun i hreg _ => hcount i hreg,
        ⟨fun i hreg _ => ?_, fun i hnot => ?_⟩⟩
      · exact honce i hreg ((hi.lines.registered i hreg).1.trans_le (not_lt.mp hirq))
      · apply hnever
        rintro ⟨hreg, -⟩
        exact hnot ⟨hreg, trivial⟩

theorem release_inv {irq : ℕ} (hi : Inv cfg s) (hboot : s.control.boot = .release irq)
    (h : step cfg s .freeup = .ok s') : Inv cfg s' := by
  obtain ⟨control, accesses, hnext, hlines, rfl⟩ := hi.step_parts h
  have hcount := hi.counted (by simp [hboot])
  have hflag := hi.flagged hboot
  have honce := hi.once hboot
  have hnever := hi.never hboot
  have hchosen := hi.chosen irq hboot
  simp only [Control.next, hboot] at hnext
  split at hnext
  case h_2 => cases hnext
  case h_1 htop hbottom =>
    cases hnext
    refine ⟨hlines, by simp, hflag, fun i hreg _ => hcount i hreg,
      ⟨fun i hreg hle => ?_, fun i hnot => ?_⟩⟩
    · by_cases heq : i = irq
      · rw [heq, List.count_append, hnever irq fun hboth => lt_irrefl irq hboth.2]
        simp
      · rw [List.count_append, honce i hreg (lt_of_le_of_ne (Nat.le_of_lt_succ hle) heq)]
        simp [Ne.symm heq]
    · have heq : i ≠ irq := by
        rintro rfl
        exact hnot ⟨hchosen, Nat.lt_succ_self _⟩
      have hold := hnever i fun hboth => hnot ⟨hboth.1, Nat.lt_succ_of_lt hboth.2⟩
      rw [List.count_append, hold]
      simp [Ne.symm heq]

theorem step_inv (hi : Inv cfg s) (hC : CountFits cfg s e) (h : step cfg s e = .ok s') :
    Inv cfg s' := by
  obtain ⟨accesses, hnext, harrays⟩ := step_eq_ok.mp h
  rcases hi.lines.handles hnext with (rfl | rfl | rfl) | ⟨i, hstep⟩
  · exact init_inv hi h
  · exact exit_inv hi h
  · cases hboot : s.control.boot with
    | test irq => exact test_inv hi hC hboot h
    | release irq => exact release_inv hi hboot h
    | _ => simp [Control.next, hboot] at hnext
  · exact handles_inv hi hstep harrays

/-- A registered line whose counter has its sign bit set is taken for a line that could
not be shared. -/
theorem not_freedOnce_of_not_countFits (hi : Inv cfg s) (hC : ¬ CountFits cfg s e) :
    ∃ s', step cfg s e = .ok s' ∧ ¬ FreedOnce s' := by
  simp only [CountFits, not_forall] at hC
  obtain ⟨irq, rfl, hboot, hirq, hreg, hhigh⟩ := hC
  have hneg : ¬ 0 ≤ s.arrays .interrupts irq := by
    rw [hi.count irq hreg (by simp [hboot]), toInt32_nonneg_iff]
    omega
  have hnever : s.control.freed.count irq = 0 :=
    hi.freed.never irq (by simp [hboot, BootPc.Passed])
  refine ⟨⟨{ s.control with boot := .test (irq + 1) }, s.arrays⟩, ?_, fun hfreed => ?_⟩
  · rw [step_eq_ok]
    refine ⟨[⟨.interrupts, irq, .read⟩], ?_, by simp⟩
    simp only [Control.next, hboot, if_pos hirq, if_neg hneg]
  · have honce := hfreed.once irq hreg (Nat.lt_succ_self irq)
    rw [hnever] at honce
    cases honce

/-- Every run frees each registered line once, and no other line, exactly when at every
test of a registered line the number of its interrupts keeps the sign bit clear. -/
theorem freedOnce_iff (cfg : Config) (arrays : Arrays) (es : List Event) :
    Runs.Always (step cfg) FreedOnce (loaded arrays) es ↔
      Runs.Along (step cfg) (CountFits cfg) (loaded arrays) es :=
  Runs.always_iff_along (I := Inv cfg) (fun _ hi => hi.freed)
    (fun _ _ _ hi hC h => step_inv hi hC h)
    (fun _ _ hi hC => not_freedOnce_of_not_countFits hi hC) (loaded_inv cfg arrays)

/-- An interrupt of line 0 that is handled by its thread before the next one comes. -/
def handled : List Event := [.arrive 0, .queue 0, .leave 0, .start 0, .credit 0, .take 0]

/-- Line 0 is registered and at rest after `n` interrupts. -/
structure AtRest (n : ℕ) (s : State) : Prop where
  boot : s.control.boot = .loaded
  live : s.control.live 0 = true
  top : s.control.top 0 = .idle
  bottom : s.control.bottom 0 = .waiting
  registered : s.control.registered 0 = true
  freed : s.control.freed = []
  interrupts : s.arrays .interrupts 0 = toInt32 n
  nevents : s.arrays .nevents 0 = 0

theorem exec_handled (cfg : Config) {n : ℕ} (h : AtRest n s) :
    ∃ s', Runs.exec (step cfg) s handled = .ok s' ∧ AtRest (n + 1) s' := by
  have hcount : atomicInc (toInt32 n) = toInt32 (n + 1 : ℕ) := by
    rw [atomicInc, toInt32_toInt32_add, Nat.cast_succ]
  have hback : atomicDec (atomicInc 0) = 0 := rfl
  simp only [handled, Runs.exec_cons, Runs.exec_nil, step, Control.next, h.live, h.top, h.bottom,
    Outcome.ok_bind, Function.update_self, List.foldl_cons, List.foldl_nil, Except.ok.injEq,
    exists_eq_left']
  exact ⟨h.boot, h.live, by simp, by simp [h.nevents, Op.apply, hback], h.registered,
    h.freed, by simp [h.interrupts, Op.apply, hcount], by simp [h.nevents, Op.apply, hback]⟩

def handledTimes : ℕ → List Event
  | 0 => []
  | n + 1 => handled ++ handledTimes n

theorem exec_handledTimes (cfg : Config) {m : ℕ} (n : ℕ) (h : AtRest m s) :
    ∃ s', Runs.exec (step cfg) s (handledTimes n) = .ok s' ∧ AtRest (m + n) s' := by
  induction n generalizing m s with
  | zero => exact ⟨s, rfl, h⟩
  | succ n ih =>
      obtain ⟨t, ht, hrest⟩ := exec_handled cfg h
      obtain ⟨s', hs', hafter⟩ := ih hrest
      refine ⟨s', ?_, by rwa [Nat.add_assoc, Nat.add_comm 1] at hafter⟩
      rw [handledTimes, Runs.exec_append, ht, Outcome.ok_bind]
      exact hs'

/-- One line, which can be shared. -/
def oneLine : Config := ⟨1, fun _ => true⟩

/-- After `2 ^ 31` interrupts the registered line is passed over. -/
theorem handledTimes_leaves :
    ∃ s, Runs.exec (step oneLine) (loaded fun _ _ => 0)
        ([.init, .init, .init, .init] ++ handledTimes 2147483648 ++ [.exit, .freeup, .freeup]) =
          .ok s ∧
      s.control.boot = .unloaded ∧ s.control.registered 0 = true ∧ s.control.freed = [] ∧
      ¬ FreedOnce s := by
  have hboot : ∃ t, Runs.exec (step oneLine) (loaded fun _ _ => 0) [.init, .init, .init, .init] =
      .ok t ∧ AtRest 0 t := ⟨_, rfl, rfl, rfl, rfl, rfl, rfl, rfl, rfl, rfl⟩
  obtain ⟨t, ht, hstart⟩ := hboot
  obtain ⟨u, hu, hrest⟩ := exec_handledTimes oneLine 2147483648 hstart
  have hneg : ¬ 0 ≤ u.arrays .interrupts 0 := by
    rw [hrest.interrupts]
    decide
  have hexit : step oneLine u .exit = .ok ⟨{ u.control with boot := .test 0 }, u.arrays⟩ := by
    simp [step, Control.next, hrest.boot]
  have hpass : step oneLine ⟨{ u.control with boot := .test 0 }, u.arrays⟩ .freeup =
      .ok ⟨{ u.control with boot := .test 1 }, u.arrays⟩ := by
    simp [step, Control.next, oneLine, hneg]
  rw [Runs.exec_append, Runs.exec_append, ht, Outcome.ok_bind, hu, Outcome.ok_bind,
    Runs.exec_cons, hexit, Outcome.ok_bind, Runs.exec_cons, hpass, Outcome.ok_bind]
  refine ⟨_, rfl, rfl, hrest.registered, hrest.freed, fun hfreed => ?_⟩
  have honce := hfreed.once 0 hrest.registered trivial
  rw [hrest.freed] at honce
  cases honce

end State

end LddSamples.Interrupts.AllLines

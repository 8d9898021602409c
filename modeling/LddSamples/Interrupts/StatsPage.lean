import LddSamples.Dma.Generic
import LddSamples.Interrupts.AllLines
import LddSamples.Kernel.Process
import LddSamples.Library.LittleEndian

/-!
# The statistics page of lab_all_interrupt.h

`interrupts` and `bhs` lie in one ram disk of a page, one behind the other, and `nevents`
is allocated apart. The size of all three is the number of lines, which nothing compares
with the size of the page. The program lab6_all_getinterrupts reads the page with a layout
of its own.
-/

namespace LddSamples.Interrupts.StatsPage

open Kernel CArith Outcome ByteMap LittleEndian
open AllLines (Config Counters Op Access Arrays Control Event BootPc)

inductive Object
  | ramdisk
  | nevents
  deriving DecidableEq

abbrev Memory := Object → ℕ → UInt8

def SIZEOF_ATOMIC : ℕ := 4

/-- `NCOPY`, for `n` lines. -/
def NCOPY (n : ℕ) : ℕ := n * SIZEOF_ATOMIC

/-- What `kmalloc` is asked for in `my_generic_init`. -/
def Object.size (n : ℕ) : Object → ℕ
  | .ramdisk => PAGE_SIZE
  | .nevents => n * SIZEOF_ATOMIC

def object : Counters → Object
  | .interrupts => .ramdisk
  | .bhs => .ramdisk
  | .nevents => .nevents

/-- `&interrupts[irq]`, `&bhs[irq]` and `&nevents[irq]`, from the start of the object. -/
def offset (n : ℕ) : Counters → ℕ → ℕ
  | .interrupts, irq => irq * SIZEOF_ATOMIC
  | .bhs, irq => NCOPY n + irq * SIZEOF_ATOMIC
  | .nevents, irq => irq * SIZEOF_ATOMIC

/-- The `int` at an element. -/
def element (n : ℕ) (memory : Memory) (counters : Counters) (irq : ℕ) : ℤ :=
  toInt32 (load (memory (object counters)) (offset n counters irq) SIZEOF_ATOMIC)

def access (n : ℕ) (memory : Memory) (x : Access) : Except Fault Memory := do
  require .indexOutOfBounds
    (Inside ((object x.counters).size n) (offset n x.counters x.irq) SIZEOF_ATOMIC)
  .ok (Function.update memory (object x.counters)
    (store (memory (object x.counters)) (offset n x.counters x.irq) SIZEOF_ATOMIC
      (x.op.apply (element n memory x.counters x.irq))))

structure State where
  control : Control
  memory : Memory

namespace State

/-- `kmalloc` leaves both objects with any content. -/
def loaded (memory : Memory) : State := ⟨.initial, memory⟩

def step (cfg : Config) (s : State) (e : Event) : Except Stop State := do
  let (control, accesses) ←
    (s.control.next cfg (element cfg.nrIrqs s.memory) e).mapError fun _ => .disabled
  let memory ← (accesses.foldlM (access cfg.nrIrqs) s.memory).mapError .fault
  .ok ⟨control, memory⟩

end State

/-- All elements are where they belong, and no run touches anything else. -/
structure Contained (cfg : Config) : Prop where
  inside : ∀ counters irq, irq < cfg.nrIrqs →
    Inside ((object counters).size cfg.nrIrqs) (offset cfg.nrIrqs counters irq) SIZEOF_ATOMIC
  apart : ∀ i j, i < cfg.nrIrqs → j < cfg.nrIrqs →
    offset cfg.nrIrqs .interrupts i + SIZEOF_ATOMIC ≤ offset cfg.nrIrqs .bhs j
  runs : ∀ memory es f, Runs.exec (State.step cfg) (State.loaded memory) es ≠ .error (.fault f)

/-! ## Elements in memory -/

theorem offset_apart (n : ℕ) {i j : ℕ} (hi : i < n) :
    offset n .interrupts i + SIZEOF_ATOMIC ≤ offset n .bhs j := by
  simp only [offset, NCOPY, SIZEOF_ATOMIC]
  omega

theorem inside_element {n : ℕ} (hn : n ≤ 512) (counters : Counters) {irq : ℕ} (hirq : irq < n) :
    Inside ((object counters).size n) (offset n counters irq) SIZEOF_ATOMIC := by
  have hpage := PAGE_SIZE_eq
  right
  cases counters with
  | interrupts =>
      simp only [object, Object.size, offset, SIZEOF_ATOMIC]
      omega
  | bhs =>
      simp only [object, Object.size, offset, NCOPY, SIZEOF_ATOMIC]
      omega
  | nevents =>
      simp only [object, Object.size, offset, SIZEOF_ATOMIC]
      omega

theorem not_inside_last {n : ℕ} (hn : 512 < n) :
    ¬ Inside ((object .bhs).size n) (offset n .bhs (n - 1)) SIZEOF_ATOMIC := by
  have hpage := PAGE_SIZE_eq
  simp only [Inside, object, Object.size, offset, NCOPY, SIZEOF_ATOMIC]
  omega

theorem offset_disjoint {n : ℕ} {counters counters' : Counters} {i j : ℕ} (hi : i < n)
    (hj : j < n) (hobject : object counters = object counters')
    (hne : counters ≠ counters' ∨ i ≠ j) :
    offset n counters i + SIZEOF_ATOMIC ≤ offset n counters' j ∨
      offset n counters' j + SIZEOF_ATOMIC ≤ offset n counters i := by
  cases counters <;> cases counters' <;>
    simp only [object, reduceCtorEq, offset, NCOPY, SIZEOF_ATOMIC, ne_eq, not_true_eq_false,
      false_or] at * <;> omega

theorem toInt32_element (n : ℕ) (memory : Memory) (counters : Counters) (irq : ℕ) :
    toInt32 (element n memory counters irq) = element n memory counters irq := toInt32_idem _

/-- The atomic operations leave an `int`. -/
theorem toInt32_apply (op : Op) {v : ℤ} (hv : toInt32 v = v) :
    toInt32 (op.apply v) = op.apply v := by
  cases op with
  | read => exact hv
  | set w => exact toInt32_idem w
  | inc => exact toInt32_idem (v + 1)
  | dec => exact toInt32_idem (v - 1)

theorem toInt32_load_store (f : ℕ → UInt8) (addr : ℕ) (v : ℤ) :
    toInt32 (load (store f addr SIZEOF_ATOMIC v) addr SIZEOF_ATOMIC) = toInt32 v := by
  rw [load_store, toInt32_eq_toInt32_iff]
  exact Int.emod_emod_of_dvd v (by decide)

variable {cfg : Config} {n : ℕ} {a : Arrays} {memory : Memory}

/-- The arrays are what the elements in memory hold. -/
def Agree (n : ℕ) (a : Arrays) (memory : Memory) : Prop :=
  ∀ counters irq, irq < n → a counters irq = element n memory counters irq

theorem access_eq {x : Access}
    (h : Inside ((object x.counters).size n) (offset n x.counters x.irq) SIZEOF_ATOMIC) :
    access n memory x = .ok (Function.update memory (object x.counters)
      (store (memory (object x.counters)) (offset n x.counters x.irq) SIZEOF_ATOMIC
        (x.op.apply (element n memory x.counters x.irq)))) := by
  simp only [access, require_of h, ok_bind]

/-- With at most 512 lines an access in memory is one to the arrays. -/
theorem access_agree (hn : n ≤ 512) (hagree : Agree n a memory) {x : Access} (hx : x.irq < n) :
    ∃ memory', access n memory x = .ok memory' ∧ Agree n (AllLines.access a x) memory' := by
  obtain ⟨counters, irq, op⟩ := x
  have hinside := inside_element hn counters hx
  refine ⟨_, access_eq hinside, fun counters' j hj => ?_⟩
  by_cases hsame : counters' = counters ∧ j = irq
  · obtain ⟨rfl, rfl⟩ := hsame
    rw [AllLines.access_self, Function.update_self, element, Function.update_self,
      toInt32_load_store, toInt32_apply op (toInt32_element ..), hagree counters' j hj]
  · have hold : AllLines.access a ⟨counters, irq, op⟩ counters' j = a counters' j := by
      by_cases hcounters : counters' = counters
      · subst hcounters
        rw [AllLines.access_self, Function.update_of_ne fun h => hsame ⟨rfl, h⟩]
      · rw [AllLines.access_other a irq op hcounters]
    rw [hold, hagree counters' j hj, element, element]
    by_cases hobject : object counters' = object counters
    · have hne : counters ≠ counters' ∨ irq ≠ j := by
        by_contra hboth
        push Not at hboth
        exact hsame ⟨hboth.1.symm, hboth.2.symm⟩
      rw [hobject, Function.update_self,
        load_store_of_disjoint _ _ (offset_disjoint hx hj hobject.symm hne)]
    · rw [Function.update_of_ne hobject]

theorem foldlM_agree (hn : n ≤ 512) (hagree : Agree n a memory) {accesses : List Access}
    (haccesses : ∀ x ∈ accesses, x.irq < n) :
    ∃ memory', accesses.foldlM (access n) memory = .ok memory' ∧
      Agree n (accesses.foldl AllLines.access a) memory' := by
  induction accesses generalizing a memory with
  | nil => exact ⟨memory, rfl, hagree⟩
  | cons x accesses ih =>
      obtain ⟨memory', hmemory', hagree'⟩ := access_agree hn hagree (haccesses x List.mem_cons_self)
      obtain ⟨memory'', hrest, hlast⟩ :=
        ih hagree' fun y hy => haccesses y (List.mem_cons_of_mem _ hy)
      refine ⟨memory'', ?_, hlast⟩
      rw [List.foldlM_cons, hmemory', ok_bind]
      exact hrest

namespace State

variable {s s' : State} {e : Event}

/-- `next` looks at elements of the lines there are only. -/
theorem next_congr {b : Arrays} {c : Control} (hlines : c.Lines cfg.nrIrqs)
    (hsame : ∀ counters irq, irq < cfg.nrIrqs → a counters irq = b counters irq) (e : Event) :
    c.next cfg a e = c.next cfg b e := by
  cases e with
  | freeup =>
      cases hboot : c.boot with
      | test irq =>
          by_cases hirq : irq < cfg.nrIrqs
          · simp only [Control.next, hboot, if_pos hirq, hsame _ irq hirq]
          · simp only [Control.next, hboot, if_neg hirq]
      | _ => simp only [Control.next, hboot]
  | take i =>
      cases hbottom : c.bottom i with
      | counted =>
          have hlive := hlines.live_of_bottom (i := i) (by simp [hbottom])
          have hi := (hlines.registered i (hlines.live i hlive)).1
          simp only [Control.next, hbottom, hsame _ i hi]
      | _ => simp only [Control.next, hbottom]
  | _ => rfl

/-- A step in memory is a step on the arrays, and never a fault. -/
theorem step_agree (hn : cfg.nrIrqs ≤ 512) (hlines : s.control.Lines cfg.nrIrqs)
    (hagree : Agree cfg.nrIrqs a s.memory) (e : Event) :
    step cfg s e = .error .disabled ∧ AllLines.State.step cfg ⟨s.control, a⟩ e = .error () ∨
      ∃ s' t, step cfg s e = .ok s' ∧ AllLines.State.step cfg ⟨s.control, a⟩ e = .ok t ∧
        t.control = s'.control ∧ s'.control.Lines cfg.nrIrqs ∧
          Agree cfg.nrIrqs t.arrays s'.memory := by
  have hnext := next_congr hlines hagree e
  cases hresult : s.control.next cfg (element cfg.nrIrqs s.memory) e with
  | error u =>
      left
      simp [step, AllLines.State.step, hnext, hresult, Except.mapError]
  | ok result =>
      right
      obtain ⟨control, accesses⟩ := result
      obtain ⟨hlines', haccesses⟩ := Control.next_lines hlines hresult
      obtain ⟨memory, hmemory, hagree'⟩ := foldlM_agree hn hagree haccesses
      refine ⟨⟨control, memory⟩, ⟨control, accesses.foldl AllLines.access a⟩, ?_, ?_, rfl, hlines',
        hagree'⟩
      · simp [step, hresult, hmemory, Except.mapError]
      · simp [AllLines.State.step, hnext, hresult]

/-- With at most 512 lines the module in memory does what it does on the arrays. -/
theorem exec_refines (hn : cfg.nrIrqs ≤ 512) (hlines : s.control.Lines cfg.nrIrqs)
    (hagree : Agree cfg.nrIrqs a s.memory) {es : List Event}
    (h : Runs.exec (step cfg) s es = .ok s') :
    ∃ t, Runs.exec (AllLines.State.step cfg) ⟨s.control, a⟩ es = .ok t ∧
      t.control = s'.control ∧ Agree cfg.nrIrqs t.arrays s'.memory := by
  have hsim : ∀ (u : State) (t : AllLines.State) (e : Event) (u' : State),
      (t.control = u.control ∧ u.control.Lines cfg.nrIrqs ∧ Agree cfg.nrIrqs t.arrays u.memory) →
      step cfg u e = .ok u' → ∃ t', AllLines.State.step cfg t e = .ok t' ∧
        t'.control = u'.control ∧ u'.control.Lines cfg.nrIrqs ∧
          Agree cfg.nrIrqs t'.arrays u'.memory := by
    rintro u ⟨_, b⟩ e u' ⟨rfl, hl, hb⟩ hu'
    rcases step_agree hn hl hb e with ⟨herror, -⟩ | ⟨v, t', hv, ht', hafter⟩
    · rw [herror] at hu'
      cases hu'
    · rw [hv] at hu'
      cases hu'
      exact ⟨t', ht', hafter⟩
  obtain ⟨t, ht, hcontrol, -, hlast⟩ := Runs.exec_simulates hsim (t := ⟨s.control, a⟩)
    ⟨rfl, hlines, hagree⟩ h
  exact ⟨t, ht, hcontrol, hlast⟩

theorem exec_no_fault (hn : cfg.nrIrqs ≤ 512) (hlines : s.control.Lines cfg.nrIrqs)
    (es : List Event) (f : Fault) : Runs.exec (step cfg) s es ≠ .error (.fault f) := by
  induction es generalizing s with
  | nil => simp
  | cons e es ih =>
      rcases step_agree hn hlines (fun _ _ _ => rfl) e with
        ⟨herror, -⟩ | ⟨s₁, t₁, hs₁, -, -, hlines', -⟩
      · simp [herror]
      · rw [Runs.exec_cons, hs₁, ok_bind]
        exact ih hlines'

theorem step_of_fault {control : Control} {accesses : List Access} {f : Fault}
    (hnext : s.control.next cfg (element cfg.nrIrqs s.memory) e = .ok (control, accesses))
    (hfold : accesses.foldlM (access cfg.nrIrqs) s.memory = .error f) :
    step cfg s e = .error (.fault f) := by
  simp [step, hnext, hfold, Except.mapError]

/-- The step goes where `next` says unless one of its accesses faults. -/
theorem step_of_next {control : Control} {accesses : List Access}
    (hnext : s.control.next cfg (element cfg.nrIrqs s.memory) e = .ok (control, accesses))
    (hnone : ∀ f, step cfg s e ≠ .error (.fault f)) :
    ∃ s', step cfg s e = .ok s' ∧ s'.control = control := by
  cases hfold : accesses.foldlM (access cfg.nrIrqs) s.memory with
  | ok memory => exact ⟨⟨control, memory⟩, by simp [step, hnext, hfold, Except.mapError], rfl⟩
  | error f => exact absurd (step_of_fault hnext hfold) (hnone f)

/-- Where no run faults, `get_irqs` comes to every line. -/
theorem exists_exec_flag (hnone : ∀ es f,
    Runs.exec (step cfg) (loaded memory) es ≠ .error (.fault f)) (k : ℕ) (hk : k ≤ cfg.nrIrqs) :
    ∃ es s, Runs.exec (step cfg) (loaded memory) es = .ok s ∧ s.control.boot = .flag k := by
  have hgo : ∀ es s control accesses, Runs.exec (step cfg) (loaded memory) es = .ok s →
      s.control.next cfg (element cfg.nrIrqs s.memory) .init = .ok (control, accesses) →
      ∃ s', Runs.exec (step cfg) (loaded memory) (es ++ [.init]) = .ok s' ∧
        s'.control = control := by
    intro es s control accesses hes hnext
    obtain ⟨s', hs', hcontrol⟩ := step_of_next hnext fun f hf => by
      apply hnone (es ++ [.init]) f
      rw [Runs.exec_append, hes, ok_bind, Runs.exec_cons, hf, error_bind]
    refine ⟨s', ?_, hcontrol⟩
    rw [Runs.exec_append, hes, ok_bind, Runs.exec_cons, hs', ok_bind, Runs.exec_nil]
  induction k with
  | zero => exact ⟨[], loaded memory, rfl, rfl⟩
  | succ k ih =>
      obtain ⟨es, s, hes, hboot⟩ := ih (Nat.le_of_succ_le hk)
      obtain ⟨s₁, hs₁, hcontrol₁⟩ := hgo es s _ _ hes (by
        simp only [Control.next, hboot, if_pos (Nat.lt_of_succ_le hk)]
        rfl)
      by_cases hshare : cfg.canShare k = true
      · obtain ⟨s₂, hs₂, hcontrol₂⟩ := hgo _ s₁ _ _ hs₁ (by
          simp only [Control.next, hcontrol₁, if_pos hshare]
          rfl)
        obtain ⟨s₃, hs₃, hcontrol₃⟩ := hgo _ s₂ _ _ hs₂ (by
          simp only [Control.next, hcontrol₂]
          rfl)
        exact ⟨_, s₃, hs₃, by rw [hcontrol₃]⟩
      · obtain ⟨s₂, hs₂, hcontrol₂⟩ := hgo _ s₁ _ _ hs₁ (by
          simp only [Control.next, hcontrol₁, if_neg hshare]
          rfl)
        exact ⟨_, s₂, hs₂, by rw [hcontrol₂]⟩

theorem foldlM_fault (memory : Memory) {accesses : List Access} {x : Access} (hx : x ∈ accesses)
    (hout : ¬ Inside ((object x.counters).size n) (offset n x.counters x.irq) SIZEOF_ATOMIC) :
    ∃ f, accesses.foldlM (access n) memory = .error f := by
  induction accesses generalizing memory with
  | nil => cases hx
  | cons y accesses ih =>
      rw [List.foldlM_cons]
      cases hy : access n memory y with
      | error f => exact ⟨f, rfl⟩
      | ok memory' =>
          rcases List.mem_cons.mp hx with rfl | hx
          · simp [access, require, hout] at hy
          · exact ih memory' hx

/-- With more than 512 lines the last element of `bhs` is behind the page. -/
theorem exists_fault (hn : 512 < cfg.nrIrqs) (memory : Memory) :
    ∃ es f, Runs.exec (step cfg) (loaded memory) es = .error (.fault f) := by
  by_contra hnone
  push Not at hnone
  obtain ⟨es, s, hes, hboot⟩ := exists_exec_flag hnone (cfg.nrIrqs - 1) (Nat.sub_le _ _)
  have hlast : cfg.nrIrqs - 1 < cfg.nrIrqs := by omega
  have hout := not_inside_last hn
  have hnext : s.control.next cfg (element cfg.nrIrqs s.memory) .init =
      .ok ({ s.control with boot := .request (cfg.nrIrqs - 1) },
        [⟨.interrupts, cfg.nrIrqs - 1, .set (-1)⟩, ⟨.bhs, cfg.nrIrqs - 1, .set 0⟩,
          ⟨.nevents, cfg.nrIrqs - 1, .set 0⟩]) := by
    simp only [Control.next, hboot, if_pos hlast]
  obtain ⟨f, hf⟩ := foldlM_fault s.memory
    (List.mem_cons_of_mem ⟨.interrupts, cfg.nrIrqs - 1, .set (-1)⟩
      (List.mem_cons_self (a := ⟨.bhs, cfg.nrIrqs - 1, .set 0⟩)
        (l := [⟨.nevents, cfg.nrIrqs - 1, .set 0⟩]))) hout
  apply hnone (es ++ [.init]) f
  rw [Runs.exec_append, hes, ok_bind, Runs.exec_cons]
  rw [step_of_fault hnext hf, error_bind]

end State

/-- The three arrays stay within their objects exactly with at most 512 lines. -/
theorem contained_iff (cfg : Config) : Contained cfg ↔ cfg.nrIrqs ≤ 512 := by
  constructor
  · intro h
    by_contra hmany
    obtain ⟨es, f, hf⟩ := State.exists_fault (not_le.mp hmany) fun _ _ => 0
    exact h.runs _ es f hf
  · intro hn
    exact ⟨fun counters irq hirq => inside_element hn counters hirq,
      fun i j hi _ => offset_apart cfg.nrIrqs hi,
      fun memory es f => State.exec_no_fault hn (Control.initial_lines cfg.nrIrqs) es f⟩

/-- With 1024 lines `bhs[0]` is behind the page, and is set at once. -/
theorem not_contained_1024 :
    Runs.exec (State.step ⟨1024, fun _ => true⟩) (State.loaded fun _ _ => 0) [.init] =
        .error (.fault .indexOutOfBounds) ∧
      ¬ Contained ⟨1024, fun _ => true⟩ := by
  have hfault : Runs.exec (State.step ⟨1024, fun _ => true⟩) (State.loaded fun _ _ => 0) [.init] =
      .error (.fault .indexOutOfBounds) := by
    simp [State.step, State.loaded, Control.initial, Control.next, access, require, Inside, object,
      Object.size, offset, NCOPY, SIZEOF_ATOMIC, PAGE_SIZE, Except.mapError]
  exact ⟨hfault, fun h => h.runs _ _ _ hfault⟩

/-! ## lab6_all_getinterrupts.c -/

namespace GetInterrupts

def MAXIRQS : ℕ := 256

def NB : ℕ := MAXIRQS * 4

inductive Death
  | readingInterrupts
  | readingBhs
  | fault (f : Fault)

/-- The two arrays of the program, and what it prints. -/
structure Report where
  interrupts : ℕ → ℤ
  bhs : ℕ → ℤ
  printed : List (ℕ × ℤ × ℤ)

/-- An array of `int` that has been filled with bytes. -/
def ints (out : List UInt8) (j : ℕ) : ℤ := toInt32 (value ((out.drop (j * 4)).take 4))

/-- What is printed is the lines with a positive counter. -/
def report (first second : List UInt8) : Report :=
  ⟨ints first, ints second, (List.range MAXIRQS).filterMap fun j =>
    if ints first j > 0 then some (j, ints first j, ints second j) else none⟩

/-- `main`, from the page that it opens; the buffers are accessible. -/
def main (page : ℕ → UInt8) : Except Death Report := do
  let r ← (Dma.AllInterrupt.mycdrvRead page NB 0 NB).mapError .fault
  require .readingInterrupts (r.ret = NB)
  let r' ← (Dma.AllInterrupt.mycdrvRead page NB r.pos NB).mapError .fault
  require .readingBhs (r'.ret = NB)
  .ok (report r.out r'.out)

/-- Both reads succeed, and what they read are the counters of the driver. -/
def Agrees (n : ℕ) (memory : Memory) : Prop :=
  ∃ r, main (memory .ramdisk) = .ok r ∧ ∀ j < MAXIRQS,
    r.interrupts j = element n memory .interrupts j ∧ r.bhs j = element n memory .bhs j

/-- The page as one array of `int`. -/
def word (page : ℕ → UInt8) (k : ℕ) : ℤ := toInt32 (load page (k * 4) 4)

theorem element_interrupts (n : ℕ) (memory : Memory) (irq : ℕ) :
    element n memory .interrupts irq = word (memory .ramdisk) irq := rfl

theorem element_bhs (n : ℕ) (memory : Memory) (irq : ℕ) :
    element n memory .bhs irq = word (memory .ramdisk) (n + irq) := by
  rw [word, Nat.add_mul]
  rfl

theorem ints_window (page : ℕ → UInt8) {k j m : ℕ} (hj : j < m) :
    ints (window page (k * 4) (m * 4)) j = word page (k + j) := by
  have hsplit : m * 4 = j * 4 + 4 + (m - j - 1) * 4 := by omega
  rw [ints, hsplit, window_add, window_add, List.append_assoc, List.drop_left' (window_length ..),
    List.take_left' (window_length ..), ← Nat.add_mul]
  rfl

theorem mycdrvRead_NB (page : ℕ → UInt8) {p : ℕ} (hp : p + NB ≤ PAGE_SIZE) :
    Dma.AllInterrupt.mycdrvRead page NB p NB = .ok ⟨NB, (p + NB : ℕ), window page p NB⟩ := by
  have hpage := PAGE_SIZE_eq
  have hNB : NB = 1024 := rfl
  have hbytes : Dma.bytesToDo PAGE_SIZE NB p = NB := by
    rw [Dma.bytesToDo_inside (by omega) (by omega), Nat.min_eq_left (by omega)]
  have hinside : Inside PAGE_SIZE (p : ℤ) NB := .inr ⟨by omega, by omega⟩
  rw [Dma.AllInterrupt.mycdrvRead, Dma.ramdiskRead_eq hbytes (by omega), if_pos hinside,
    Nat.min_self, toInt64_of_mem (by omega) (by omega), Int.natCast_add]
  rfl

theorem main_of_reads {page : ℕ → UInt8} {pos pos' : ℤ} {first second : List UInt8}
    (hfirst : Dma.AllInterrupt.mycdrvRead page NB 0 NB = .ok ⟨NB, pos, first⟩)
    (hsecond : Dma.AllInterrupt.mycdrvRead page NB pos NB = .ok ⟨NB, pos', second⟩) :
    main page = .ok (report first second) := by
  rw [main, hfirst]
  refine bind_eq_ok.mpr ⟨⟨NB, pos, first⟩, rfl, bind_eq_ok.mpr ⟨(), require_of rfl, ?_⟩⟩
  rw [hsecond]
  exact bind_eq_ok.mpr ⟨⟨NB, pos', second⟩, rfl, bind_eq_ok.mpr ⟨(), require_of rfl, rfl⟩⟩

/-- The program takes the page for two arrays of `MAXIRQS` elements. -/
theorem main_eq (page : ℕ → UInt8) :
    main page = .ok (report (window page 0 NB) (window page NB NB)) := by
  have hfirst := mycdrvRead_NB page (p := 0) (by decide)
  rw [Nat.zero_add, Nat.cast_zero] at hfirst
  exact main_of_reads hfirst (mycdrvRead_NB page (p := NB) (by decide))

theorem report_interrupts (page : ℕ → UInt8) {j : ℕ} (hj : j < MAXIRQS) :
    (report (window page 0 NB) (window page NB NB)).interrupts j = word page j := by
  have hints := ints_window page (k := 0) hj
  rw [Nat.zero_mul, Nat.zero_add] at hints
  exact hints

theorem report_bhs (page : ℕ → UInt8) {j : ℕ} (hj : j < MAXIRQS) :
    (report (window page 0 NB) (window page NB NB)).bhs j = word page (MAXIRQS + j) :=
  ints_window page (k := MAXIRQS) hj

theorem agrees_iff_words (n : ℕ) (memory : Memory) :
    Agrees n memory ↔
      ∀ j < MAXIRQS, word (memory .ramdisk) (MAXIRQS + j) = word (memory .ramdisk) (n + j) := by
  simp only [Agrees, main_eq, Except.ok.injEq, exists_eq_left']
  constructor
  · intro hsame j hj
    rw [← report_bhs _ hj, (hsame j hj).2, element_bhs]
  · intro hsame j hj
    refine ⟨report_interrupts _ hj, ?_⟩
    rw [report_bhs _ hj, hsame j hj, element_bhs]

/-- A sequence repeats itself at a distance exactly when it continues its first period. -/
theorem repeats_iff {f : ℕ → ℤ} {a d m : ℕ} (hd : 0 < d) :
    (∀ j < m, f (a + j) = f (a + d + j)) ↔ ∀ j < m, f (a + d + j) = f (a + j % d) := by
  constructor
  · intro h j
    induction j using Nat.strong_induction_on with
    | _ j ih =>
        intro hj
        rw [← h j hj]
        by_cases hlow : j < d
        · rw [Nat.mod_eq_of_lt hlow]
        · have hback := ih (j - d) (by omega) (by omega)
          rw [show a + d + (j - d) = a + j by omega] at hback
          rw [hback, Nat.mod_eq_sub_mod (not_lt.mp hlow)]
  · intro h j hj
    rw [h j hj]
    by_cases hlow : j < d
    · rw [Nat.mod_eq_of_lt hlow]
    · have hback := h (j - d) (by omega)
      rw [show a + d + (j - d) = a + j by omega] at hback
      rw [hback, ← Nat.mod_eq_sub_mod (not_lt.mp hlow)]

/-- With 256 lines the program shows the counters. With more of them it shows the first
elements of `bhs` as they stand at the end of `interrupts`, and this is right exactly
when `bhs` goes on with the period that the end of `interrupts` is. -/
theorem agrees_iff {n : ℕ} (hmin : 256 ≤ n) (hfit : 8 * n ≤ PAGE_SIZE) (memory : Memory) :
    Agrees n memory ↔ n = 256 ∨ ∀ j < 256,
      element n memory .bhs j = element n memory .interrupts (256 + j % (n - 256)) := by
  have hmax : MAXIRQS = 256 := rfl
  rw [agrees_iff_words, hmax]
  simp only [element_bhs, element_interrupts]
  rcases hmin.eq_or_lt with rfl | hmore
  · simp
  · rw [or_iff_right hmore.ne']
    have hrepeats := repeats_iff (f := word (memory .ramdisk)) (a := 256) (d := n - 256) (m := 256)
      (Nat.sub_pos_of_lt hmore)
    rwa [Nat.add_sub_cancel' hmin] at hrepeats

theorem agrees_iff_257 :
    Agrees 257 (fun _ _ => 0) ↔ 257 = 256 ∨ ∀ j < 256,
      element 257 (fun _ _ => 0) .bhs j =
        element 257 (fun _ _ => 0) .interrupts (256 + j % (257 - 256)) :=
  agrees_iff (by decide) (by decide) fun _ _ => 0

/-- The page with the flag of line 256, and 0 everywhere else. -/
def flagged : ℕ → UInt8 := store (fun _ => 0) 1024 4 (-1)

theorem word_flagged : word flagged 256 = -1 := by
  have hflag : toInt32 (load (store (fun _ => 0) 1024 4 (-1)) 1024 4) = toInt32 (-1) :=
    toInt32_load_store (fun _ => 0) 1024 (-1)
  have hplace : 256 * 4 = 1024 := by norm_num
  rw [word, flagged, hplace, hflag]
  decide

theorem word_behind_flagged : word flagged 257 = 0 := by
  have hload : load (store (fun _ => 0) 1024 4 (-1)) 1028 4 = load (fun _ => 0) 1028 4 :=
    load_store_of_disjoint _ _ (.inl (by decide))
  have hplace : 257 * 4 = 1028 := by norm_num
  rw [word, flagged, hplace, hload]
  decide

/-- With 257 lines, of which the last is not shared, the program takes its flag for
`bhs[0]`. -/
theorem flagged_disagrees :
    (∃ r, main flagged = .ok r ∧ r.bhs 0 = -1) ∧
      element 257 (fun _ => flagged) .bhs 0 = 0 ∧ ¬ Agrees 257 fun _ => flagged := by
  refine ⟨⟨_, main_eq flagged, ?_⟩, ?_, fun hagrees => ?_⟩
  · rw [report_bhs flagged (by decide)]
    exact word_flagged
  · rw [element_bhs]
    exact word_behind_flagged
  · have hsame : word flagged 256 = word flagged 257 :=
      (agrees_iff_words 257 _).mp hagrees 0 (by decide)
    rw [word_flagged, word_behind_flagged] at hsame
    cases hsame

end GetInterrupts

end LddSamples.Interrupts.StatsPage

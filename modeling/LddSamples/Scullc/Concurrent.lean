import LddSamples.Kernel.Process
import LddSamples.Scullc.SlabBounds

/-!
# Concurrent calls on one scullc device

A transfer reads the geometry of the device in two separate steps before it takes
the mutex. Commands change the module's variables at any time, and write-only
opens trim the device under the mutex.
-/

namespace LddSamples.Scullc

open Kernel CArith Outcome

inductive Request
  | read (count : ℕ) (pos : ℤ) (aio : Bool)
  | write (buf : List UInt8) (pos : ℤ) (aio : Bool)

namespace Request

def pos : Request → ℤ
  | .read _ pos _ => pos
  | .write _ pos _ => pos

def call (env : Env) (m : Module) (heap : Heap) (dev : ScullcDev) :
    Request → Except Fault Transfer
  | .read count pos aio => scullcDoRead env m heap dev count pos aio
  | .write buf pos aio => scullcDoWrite env m heap dev buf buf.length pos aio

/-- The critical section, with the geometry sampled before it. -/
def locked (env : Env) (m : Module) (heap : Heap) (dev : ScullcDev) (quantum qset : ℤ) :
    Request → Except Fault Transfer
  | .read count pos aio => readLocked env m heap dev quantum qset count pos aio
  | .write buf pos aio => writeLocked env m heap dev quantum qset buf buf.length pos aio

end Request

/-- Where a process stands in `scullc_do_read`, `scullc_do_write` or `scullc_open`. -/
inductive Pc
  | idle
  | sampledQuantum (r : Request) (quantum : ℤ)
  | sampled (r : Request) (quantum qset : ℤ)
  | inside (r : Request) (quantum qset : ℤ)
  | opening
  | trimming

def Pc.request : Pc → Option Request
  | .sampledQuantum r _ => some r
  | .sampled r _ _ => some r
  | .inside r _ _ => some r
  | _ => none

structure World (ι : Type) where
  module : Module
  dev : ScullcDev
  heap : Heap
  pc : ι → Pc

inductive Event (ι : Type)
  | ioctl (p : ι) (cmd : ℕ) (arg : ℤ) (u : UserInt)
  | sampleQuantum (p : ι) (r : Request)
  | sampleQset (p : ι)
  | lock (p : ι)
  | critical (p : ι) (env : Env)
  | openDev (p : ι) (flags : ℕ)
  | lockOpen (p : ι)
  | trim (p : ι)
  | interrupt (p : ι)

namespace World

variable {ι : Type} [DecidableEq ι]

def initial : World ι := ⟨.initial, .initial, ⟨0, []⟩, fun _ => .idle⟩

def goto (w : World ι) (p : ι) (pc : Pc) : World ι := { w with pc := Function.update w.pc p pc }

def step (w : World ι) : Event ι → Except Stop (World ι)
  | .ioctl _ cmd arg u => .ok { w with module := (scullcIoctl w.module cmd arg u).2 }
  | .sampleQuantum p r =>
      match w.pc p with
      | .idle => do
          require .disabled (0 ≤ r.pos)
          .ok (w.goto p (.sampledQuantum r w.dev.quantum))
      | _ => .error .disabled
  | .sampleQset p =>
      match w.pc p with
      | .sampledQuantum r quantum => .ok (w.goto p (.sampled r quantum w.dev.qset))
      | _ => .error .disabled
  | .lock p =>
      match w.pc p with
      | .sampled r quantum qset => do
          require .disabled (w.dev.mutex = false)
          .ok { w.goto p (.inside r quantum qset) with dev := w.dev.lock }
      | _ => .error .disabled
  | .critical p env =>
      match w.pc p with
      | .inside r quantum qset => do
          let t ← crash (r.locked env w.module w.heap w.dev quantum qset)
          .ok { w.goto p .idle with dev := t.dev, heap := t.heap }
      | _ => .error .disabled
  | .openDev p flags =>
      match w.pc p with
      | .idle => .ok (if flags % (O_ACCMODE + 1) = O_WRONLY then w.goto p .opening else w)
      | _ => .error .disabled
  | .lockOpen p =>
      match w.pc p with
      | .opening => do
          require .disabled (w.dev.mutex = false)
          .ok { w.goto p .trimming with dev := w.dev.lock }
      | _ => .error .disabled
  | .trim p =>
      match w.pc p with
      | .trimming => do
          let (_, dev, heap) ← crash (scullcTrim w.module w.heap w.dev)
          .ok { w.goto p .idle with dev := dev.unlock, heap := heap }
      | _ => .error .disabled
  | .interrupt p =>
      match w.pc p with
      | .sampled _ _ _ => .ok (w.goto p .idle)
      | .opening => .ok (w.goto p .idle)
      | _ => .error .disabled

/-- The steps of one transfer, taken without interruption, are the whole call. -/
theorem uninterrupted (w : World ι) {p : ι} {r : Request} {env : Env} (hidle : w.pc p = .idle)
    (hfree : w.dev.mutex = false) (hpos : 0 ≤ r.pos) (hsignal : env.signalled = false) :
    Runs.exec step w [.sampleQuantum p r, .sampleQset p, .lock p, .critical p env] =
      (crash (r.call env w.module w.heap w.dev)).map fun t =>
        { w with dev := t.dev, heap := t.heap } := by
  have hcall : r.call env w.module w.heap w.dev =
      r.locked env w.module w.heap w.dev.lock w.dev.quantum w.dev.qset := by
    cases r with
    | read count pos aio =>
        simp only [Request.call, Request.locked, scullcDoRead, hsignal, Bool.false_eq_true,
          if_false]
    | write buf pos aio =>
        simp only [Request.call, Request.locked, scullcDoWrite, hsignal, Bool.false_eq_true,
          if_false]
  have hpc : Function.update w.pc p .idle = w.pc := by
    rw [← hidle, Function.update_eq_self]
  rw [hcall]
  simp only [Runs.exec_cons, Runs.exec_nil, step, hidle, require_of hpos, ok_bind, goto,
    Function.update_self, Function.update_idem, require_of hfree]
  cases r.locked env w.module w.heap w.dev.lock w.dev.quantum w.dev.qset with
  | error f => rfl
  | ok t => simp only [crash, ok_bind, hpc, Except.map]

/-! ## Samples that are still current -/

structure Regular (dev : ScullcDev) : Prop where
  geometry : ∃ q s : ℕ, Geometry q s ∧ dev.quantum = q ∧ dev.qset = s
  shaped : Shaped dev

structure Steady (w : World ι) : Prop where
  good : w.module.Good
  regular : Regular w.dev
  positions : ∀ p r, (w.pc p).request = some r → 0 ≤ r.pos

def IoctlGood (w : World ι) (e : Event ι) : Prop :=
  ∀ p cmd arg u, e = .ioctl p cmd arg u → (scullcIoctl w.module cmd arg u).2.Good

/-- A transfer in its critical section works with the geometry that the device
has now, and the objects of the cache can hold the quantum. -/
def SampleCurrent (w : World ι) (e : Event ι) : Prop :=
  ∀ p env r quantum qset, e = .critical p env → w.pc p = .inside r quantum qset →
    quantum = w.dev.quantum ∧ qset = w.dev.qset ∧ w.dev.quantum ≤ w.module.objectSize

/-- The step does not use an index outside an array, nor copy outside a quantum. -/
def InBounds (w : World ι) (e : Event ι) : Prop :=
  ∀ f, step w e = .error (.fault f) → f ≠ .indexOutOfBounds ∧ f ≠ .copyOutOfBounds

variable {w w' : World ι} {e : Event ι} {dev dev₁ : ScullcDev}

theorem initial_good : Module.initial.Good := ⟨by decide, by decide, by decide⟩

omit [DecidableEq ι] in
theorem initial_steady : Steady (initial : World ι) where
  good := initial_good
  regular :=
    ⟨⟨4000, 500, ⟨by decide, by decide, by decide⟩, rfl, rfl⟩, fun i data hdata => by
      have hnone : ScullcDev.initial.dataAt i = none := fresh_dataAt _ _ i
      rw [show (initial : World ι).dev = ScullcDev.initial from rfl, hnone] at hdata
      cases hdata⟩
  positions p r hr := by cases hr

theorem Regular.of_sameData (h : Regular dev) (hsame : SameData dev dev₁) : Regular dev₁ := by
  obtain ⟨q, s, hg, hq, hs⟩ := h.geometry
  exact ⟨⟨q, s, hg, hsame.quantum.trans hq, hsame.qset.trans hs⟩, hsame.shaped h.shaped⟩

theorem Steady.move (h : Steady w) {p : ι} {pc : Pc} (hdev : Regular dev) (heap : Heap)
    (hpc : ∀ r, pc.request = some r → 0 ≤ r.pos) :
    Steady { w.goto p pc with dev := dev, heap := heap } where
  good := h.good
  regular := hdev
  positions p' r hr := by
    by_cases hp : p' = p
    · subst hp
      simp only [goto, Function.update_self] at hr
      exact hpc r hr
    · simp only [goto, Function.update_of_ne hp] at hr
      exact h.positions p' r hr

/-- The process drops its request. -/
theorem Steady.drop (h : Steady w) {p : ι} {pc : Pc} (hdev : Regular dev) (heap : Heap)
    (hpc : pc.request = none) : Steady { w.goto p pc with dev := dev, heap := heap } :=
  h.move hdev heap fun r hr => by
    rw [hpc] at hr
    cases hr

/-- The process goes on with the request that it has. -/
theorem Steady.keep (h : Steady w) {p : ι} {pc : Pc} (hdev : Regular dev) (heap : Heap)
    (hpc : pc.request = (w.pc p).request) :
    Steady { w.goto p pc with dev := dev, heap := heap } :=
  h.move hdev heap fun r hr => h.positions p r (hpc ▸ hr)

theorem Regular.locked (h : Regular dev) {env : Env} {m : Module} {heap : Heap} {r : Request}
    {t : Transfer} (hrun : r.locked env m heap dev dev.quantum dev.qset = .ok t) :
    Regular t.dev := by
  cases r with
  | read count pos aio => exact h.of_sameData (readLocked_sameData hrun)
  | write buf pos aio =>
      obtain ⟨q, s, hg, hq, hs⟩ := h.geometry
      obtain ⟨hquantum, hqset, -⟩ := writeLocked_geometry hrun
      exact ⟨⟨q, s, hg, hquantum.trans hq, hqset.trans hs⟩, writeLocked_shaped hrun h.shaped⟩

theorem Regular.index (h : Regular dev) {pos : ℤ} (hpos : 0 ≤ pos) {loc : Loc}
    (hloc : locate dev.quantum dev.qset pos = .ok loc) : 0 ≤ loc.sPos ∧ loc.sPos < dev.qset := by
  obtain ⟨q, s, hg, hq, hs⟩ := h.geometry
  obtain ⟨p, rfl⟩ := Int.eq_ofNat_of_zero_le hpos
  rw [hq, hs, locate_eq hg] at hloc
  obtain rfl := Except.ok.inj hloc
  have hlt : ((p / q % s : ℕ) : ℤ) < s := by exact_mod_cast Nat.mod_lt (p / q) hg.qset_pos
  rw [hs]
  exact ⟨Int.natCast_nonneg _, hlt⟩

theorem Regular.locked_inBounds (h : Regular dev) {env : Env} {m : Module} {heap : Heap}
    {r : Request} (hpos : 0 ≤ r.pos) (hroom : dev.quantum ≤ m.objectSize) {f : Fault}
    (hrun : r.locked env m heap dev dev.quantum dev.qset = .error f) :
    f ≠ .indexOutOfBounds ∧ f ≠ .copyOutOfBounds := by
  obtain ⟨q, s, hg, hq, -⟩ := h.geometry
  have hquantum : 0 < dev.quantum := by
    rw [hq]
    exact_mod_cast hg.quantum_pos
  have hint : dev.quantum ≤ INT_MAX := by
    rw [hq]
    exact hg.quantum_le
  cases r with
  | read count pos aio =>
      rcases (readTarget_error (readLocked_error hrun)).2 with rfl | rfl |
        ⟨loc, data, hloc, hdata, ⟨rfl, hindex⟩ | ⟨mem, -, rfl, hout⟩⟩
      · simp
      · simp
      · rw [h.shaped _ _ hdata] at hindex
        exact absurd (h.index hpos hloc) hindex
      · obtain ⟨hlow, hhigh⟩ := locate_qPos hloc hpos hquantum
        exact absurd (inside_clampCount hlow hhigh hint hroom _) hout
  | write buf pos aio =>
      rcases writeTarget_error (writeLocked_error hrun) with rfl | rfl |
        ⟨loc, hloc, ⟨rfl, hindex⟩ | ⟨rfl, -, -⟩ | ⟨rfl, hout, -⟩⟩
      · simp
      · simp
      · rw [h.shaped.lenAt] at hindex
        exact absurd (h.index hpos hloc) hindex
      · simp
      · obtain ⟨hlow, hhigh⟩ := locate_qPos hloc hpos hquantum
        exact absurd (inside_clampCount hlow hhigh hint hroom _) hout

theorem step_steady (hw : Steady w) (hioctl : IoctlGood w e) (hsample : SampleCurrent w e)
    (h : step w e = .ok w') : Steady w' := by
  cases e with
  | ioctl p cmd arg u =>
      cases h
      exact ⟨hioctl p cmd arg u rfl, hw.regular, hw.positions⟩
  | sampleQuantum p r =>
      simp only [step] at h
      split at h
      · simp only [bind_eq_ok, require_eq_ok, Except.ok.injEq] at h
        obtain ⟨_, hpos, rfl⟩ := h
        apply hw.move hw.regular
        intro r' hr'
        cases hr'
        exact hpos
      · cases h
  | sampleQset p =>
      simp only [step] at h
      split at h
      · next r quantum hpc =>
          cases h
          exact hw.keep hw.regular _ (by rw [hpc]; rfl)
      · cases h
  | lock p =>
      simp only [step] at h
      split at h
      · next r quantum qset hpc =>
          simp only [bind_eq_ok, require_eq_ok, Except.ok.injEq] at h
          obtain ⟨_, -, rfl⟩ := h
          exact hw.keep (hw.regular.of_sameData (.lock _)) _ (by rw [hpc]; rfl)
      · cases h
  | critical p env =>
      simp only [step] at h
      split at h
      · next r quantum qset hpc =>
          simp only [bind_eq_ok, crash_eq_ok, Except.ok.injEq] at h
          obtain ⟨t, hrun, rfl⟩ := h
          obtain ⟨rfl, rfl, -⟩ := hsample p env r quantum qset rfl hpc
          exact hw.drop (hw.regular.locked hrun) _ rfl
      · cases h
  | openDev p flags =>
      simp only [step] at h
      split at h
      · cases h
        split
        · exact hw.drop hw.regular _ rfl
        · exact hw
      · cases h
  | lockOpen p =>
      simp only [step] at h
      split at h
      · simp only [bind_eq_ok, require_eq_ok, Except.ok.injEq] at h
        obtain ⟨_, -, rfl⟩ := h
        exact hw.drop (hw.regular.of_sameData (.lock _)) _ rfl
      · cases h
  | trim p =>
      simp only [step] at h
      split at h
      · simp only [bind_eq_ok, crash_eq_ok, Prod.exists, Except.ok.injEq] at h
        obtain ⟨ret, dev, heap, htrim, rfl⟩ := h
        refine hw.drop ?_ _ rfl
        rcases scullcTrim_ok htrim with ⟨-, rfl⟩ | ⟨-, rfl⟩
        · exact hw.regular.of_sameData (SameData.refl _).unlock
        · obtain ⟨q, s, hg, hq, hs⟩ := hw.good.geometry
          exact ⟨⟨q, s, hg, hq, hs⟩, trimmed_shaped _ _⟩
      · cases h
  | interrupt p =>
      simp only [step] at h
      split at h
      · cases h
        exact hw.drop hw.regular _ rfl
      · cases h
        exact hw.drop hw.regular _ rfl
      · cases h

theorem step_inBounds (hw : Steady w) (hsample : SampleCurrent w e) : InBounds w e := by
  intro f h
  cases e with
  | ioctl p cmd arg u => cases h
  | critical p env =>
      simp only [step] at h
      split at h
      · next r quantum qset hpc =>
          obtain ⟨rfl, rfl, hroom⟩ := hsample p env r quantum qset rfl hpc
          rcases bind_eq_error.mp h with h | ⟨t, -, h⟩
          · exact hw.regular.locked_inBounds (hw.positions p r (by rw [hpc]; rfl)) hroom
              (crash_eq_fault.mp h)
          · cases h
      · cases h
  | trim p =>
      simp only [step] at h
      split at h
      · rcases bind_eq_error.mp h with h | ⟨t, -, h⟩
        · have htrim := crash_eq_fault.mp h
          by_cases hvmas : w.dev.vmas = 0
          · obtain ⟨heap, hret⟩ := scullcTrim_returns w.module w.heap hw.regular.shaped hvmas
            rw [hret] at htrim
            cases htrim
          · simp [scullcTrim, hvmas] at htrim
        · cases h
      · cases h
  | sampleQuantum | lock | lockOpen =>
      simp only [step] at h
      split at h
      · rcases bind_eq_error.mp h with h | ⟨_, -, h⟩
        · simp [require_eq_error] at h
        · cases h
      · cases h
  | sampleQset | openDev | interrupt =>
      simp only [step] at h
      split at h <;> cases h

/-- In every interleaving in which ioctls leave good variables, no index and no
copy is out of bounds as long as every critical section works with the geometry
that the device has at that time. -/
theorem current_samples_inBounds (es : List (Event ι))
    (hioctl : Runs.Along step IoctlGood initial es)
    (hsample : Runs.Along step SampleCurrent initial es) : Runs.Along step InBounds initial es := by
  apply Runs.along_of_along (I := Steady) ?_ ?_ initial_steady
    (Runs.along_and.mpr ⟨hioctl, hsample⟩)
  · intro w e hw hC
    exact step_inBounds hw hC.2
  · intro w e w' hw hC h
    exact step_steady hw hC.1 hC.2 h

def overtakenWrite : List (Event ℕ) :=
  [.sampleQuantum 1 (.write [7] 0 false), .sampleQset 1, .lock 1,
    .sampleQuantum 2 (.write [8] 4000 false), .critical 1 Env.calm]

theorem overtakenWrite_inBounds : Runs.Along step InBounds initial overtakenWrite := by
  apply current_samples_inBounds overtakenWrite
  · iterate 5
      apply Runs.along_cons_of rfl
      · intro p cmd arg u h
        cases h
    trivial
  · iterate 4
      apply Runs.along_cons_of rfl
      · intro p env r quantum qset h
        cases h
    apply Runs.along_cons_of rfl
    · intro p env r quantum qset h hpc
      cases h
      have hpc : Pc.inside (.write [7] 0 false) 4000 500 = .inside r quantum qset := hpc
      cases hpc
      exact ⟨rfl, rfl, by decide⟩
    · trivial

/-- A writer samples 4000 and 500 and is delayed. Meanwhile `SCULLC_IOCTQSET` sets
1, a write-only open trims the device, and another writer allocates an array of
one slot. The delayed write then uses slot 2 of it. -/
def delayedWrite : List (Event ℕ) :=
  [.sampleQuantum 1 (.write [7] 8000 false), .sampleQset 1,
    .ioctl 2 SCULLC_IOCTQSET 1 ⟨none, true⟩, .openDev 2 O_WRONLY, .lockOpen 2, .trim 2,
    .sampleQuantum 3 (.write [8] 0 false), .sampleQset 3, .lock 3, .critical 3 Env.calm, .lock 1]

theorem delayedWrite_out_of_bounds :
    Runs.Along step IoctlGood initial delayedWrite ∧
    ∃ w, Runs.exec step initial delayedWrite = .ok w ∧
      step w (.critical 1 Env.calm) = .error (.fault .indexOutOfBounds) ∧
      ¬ Runs.Along step InBounds initial (delayedWrite ++ [.critical 1 Env.calm]) := by
  constructor
  · iterate 2
      apply Runs.along_cons_of rfl
      · intro p cmd arg u h
        cases h
    apply Runs.along_cons_of rfl
    · intro p cmd arg u h
      cases h
      exact ⟨by decide, by decide, by decide⟩
    iterate 8
      apply Runs.along_cons_of rfl
      · intro p cmd arg u h
        cases h
    trivial
  refine ⟨_, rfl, rfl, fun hall => ?_⟩
  exact (Runs.Along.last hall rfl .indexOutOfBounds rfl).1 rfl

end World

end LddSamples.Scullc

import LddSamples.Scullc.Control
import LddSamples.Scullc.TransferSpec

/-!
# What every operation keeps of a device

The arrays have the length the device's geometry gives them, and the part of a
quantum that a transfer can reach has been initialised. Transfers keep both,
whatever the environment does to them.
-/

namespace LddSamples.Scullc

open Kernel CArith Outcome ByteMap

variable {env : Env} {m : Module} {heap : Heap} {dev dev₁ : ScullcDev} {q s : ℕ} {quantum : ℤ}
  {count : ℕ} {pos : ℤ} {aio : Bool}

def Shaped (dev : ScullcDev) : Prop :=
  ∀ i data, dev.dataAt i = some data → (data.len : ℤ) = dev.qset

/-- The first `q` bytes of every quantum have been initialised. -/
def Filled (q : ℕ) (dev : ScullcDev) : Prop :=
  ∀ i j mem, dev.quantumAt i j = some mem → ∀ o < q, (mem.cells o).isSome

/-- A device of geometry `q`, `s` in which every byte can be read. -/
structure WellFormed (q s : ℕ) (dev : ScullcDev) : Prop where
  quantum_eq : dev.quantum = q
  qset_eq : dev.qset = s
  shaped : Shaped dev
  filled : Filled q dev

theorem Shaped.lenAt (h : Shaped dev) (i : ℕ) : dev.lenAt i dev.qset = dev.qset := by
  cases hdata : dev.dataAt i with
  | none => simp [ScullcDev.lenAt, hdata]
  | some data => simpa [ScullcDev.lenAt, hdata] using h i data hdata

theorem fresh_dataAt (quantum qset : ℤ) (i : ℕ) :
    (ScullcDev.fresh quantum qset).dataAt i = none := by
  cases i <;> simp [ScullcDev.fresh, ScullcDev.dataAt]

theorem fresh_quantumAt (quantum qset : ℤ) (i j : ℕ) :
    (ScullcDev.fresh quantum qset).quantumAt i j = none := by
  simp [ScullcDev.quantumAt, fresh_dataAt]

theorem wellFormed_of_dataAt_none (hquantum : dev.quantum = q) (hqset : dev.qset = s)
    (hdata : ∀ i, dev.dataAt i = none) : WellFormed q s dev where
  quantum_eq := hquantum
  qset_eq := hqset
  shaped i data h := by simp [hdata] at h
  filled i j mem h := by simp [ScullcDev.quantumAt, hdata] at h

theorem wellFormed_fresh (q s : ℕ) : WellFormed q s (.fresh q s) :=
  wellFormed_of_dataAt_none rfl rfl (fresh_dataAt q s)

theorem trimmed_dataAt (dev : ScullcDev) (m : Module) (i : ℕ) :
    (dev.trimmed m).dataAt i = none := by
  cases i <;> simp [ScullcDev.trimmed, ScullcDev.dataAt]

theorem trimmed_shaped (dev : ScullcDev) (m : Module) : Shaped (dev.trimmed m).unlock := by
  intro i data hdata
  rw [ScullcDev.unlock_dataAt, trimmed_dataAt] at hdata
  cases hdata

/-- The loops of `scullc_trim` stay inside arrays of the right length. -/
theorem freeData_returns {qset : ℤ} (heap : Heap) {found : Option PtrArray}
    (hlen : ∀ data, found = some data → (data.len : ℤ) = qset) :
    ∃ heap', freeData qset heap found = .ok heap' := by
  cases found with
  | none => exact ⟨heap, rfl⟩
  | some data =>
      have hroom : qset ≤ data.len := (hlen data rfl).ge
      simp only [freeData, require_of hroom, ok_bind]
      exact ⟨_, rfl⟩

theorem freeItems_returns {qset : ℤ} (heap : Heap) {items : List ListItem}
    (hlen : ∀ item ∈ items, ∀ data, item.data = some data → (data.len : ℤ) = qset) :
    ∃ heap', freeItems qset heap items = .ok heap' := by
  induction items generalizing heap with
  | nil => exact ⟨heap, rfl⟩
  | cons item items ih =>
      obtain ⟨heap₁, hfirst⟩ := freeData_returns heap (hlen item List.mem_cons_self)
      obtain ⟨heap₂, hrest⟩ := ih (kfree heap₁ item.addr)
        fun next hnext => hlen next (List.mem_cons_of_mem _ hnext)
      exact ⟨heap₂, by simp only [freeItems, hfirst, ok_bind, hrest]⟩

theorem scullcTrim_returns (m : Module) (heap : Heap) (hdev : Shaped dev) (hvmas : dev.vmas = 0) :
    ∃ heap', scullcTrim m heap dev = .ok (0, dev.trimmed m, heap') := by
  obtain ⟨heap₁, hfirst⟩ := freeData_returns heap (hdev 0)
  obtain ⟨heap₂, hrest⟩ : ∃ heap₂, freeItems dev.qset heap₁ dev.next = .ok heap₂ := by
    apply freeItems_returns
    intro item hitem data hdata
    obtain ⟨n, hn⟩ := List.mem_iff_getElem?.mp hitem
    exact hdev (n + 1) data (by simp [ScullcDev.dataAt, hn, hdata])
  have hfirst : freeData dev.qset heap dev.data = .ok heap₁ := hfirst
  exact ⟨heap₂, by simp [scullcTrim, hvmas, hfirst, hrest]⟩

theorem scullcOpen_returns (env : Env) (m : Module) (heap : Heap) (hdev : Shaped dev)
    (flags : ℕ) : ∃ r, scullcOpen env m heap dev flags = .ok r := by
  unfold scullcOpen
  split
  · split
    · exact ⟨_, rfl⟩
    · have hlock : Shaped dev.lock := fun i data hdata => hdev i data (by
        rwa [ScullcDev.lock_dataAt] at hdata)
      by_cases hvmas : dev.lock.vmas = 0
      · obtain ⟨heap₁, htrim⟩ := scullcTrim_returns m heap hlock hvmas
        simp only [htrim, ok_bind]
        exact ⟨_, rfl⟩
      · simp only [scullcTrim, if_pos hvmas, ok_bind]
        exact ⟨_, rfl⟩
  · exact ⟨_, rfl⟩

/-! ## Reads -/

theorem SameData.shaped (h : SameData dev dev₁) (hdev : Shaped dev) : Shaped dev₁ :=
  fun i data hdata => (hdev i data (h.dataAt i ▸ hdata)).trans h.qset.symm

theorem SameData.filled (h : SameData dev dev₁) (hdev : Filled q dev) : Filled q dev₁ :=
  fun i j mem hmem => hdev i j mem (h.quantumAt i j ▸ hmem)

theorem SameData.wellFormed (h : SameData dev dev₁) (hdev : WellFormed q s dev) :
    WellFormed q s dev₁ where
  quantum_eq := h.quantum.trans hdev.quantum_eq
  qset_eq := h.qset.trans hdev.qset_eq
  shaped := h.shaped hdev.shaped
  filled := h.filled hdev.filled

theorem readLocked_sameData {qset : ℤ} {t : Transfer}
    (h : readLocked env m heap dev quantum qset count pos aio = .ok t) : SameData dev t.dev := by
  rcases readLocked_ok h with ⟨dev₁, heap₁, htarget, rfl⟩ | ⟨bytes, dev₁, heap₁, htarget, rfl⟩
  · exact (readTarget_none htarget).1.unlock
  · rw [readCopy_dev]
    exact (readTarget_some htarget).1.unlock

theorem scullcDoRead_sameData {t : Transfer}
    (h : scullcDoRead env m heap dev count pos aio = .ok t) : SameData dev t.dev := by
  unfold scullcDoRead at h
  split at h
  · cases h
    exact .refl dev
  · exact (SameData.lock dev).trans (readLocked_sameData h)

/-! ## Writes -/

@[simp] theorem ScullcDev.extend_dataAt (dev : ScullcDev) (pos : ℤ) (i : ℕ) :
    (dev.extend pos).dataAt i = dev.dataAt i := by
  unfold ScullcDev.extend
  split
  · cases i <;> rfl
  · rfl

@[simp] theorem ScullcDev.extend_quantum (dev : ScullcDev) (pos : ℤ) :
    (dev.extend pos).quantum = dev.quantum := by
  unfold ScullcDev.extend
  split <;> rfl

@[simp] theorem ScullcDev.extend_qset (dev : ScullcDev) (pos : ℤ) :
    (dev.extend pos).qset = dev.qset := by
  unfold ScullcDev.extend
  split <;> rfl

@[simp] theorem ScullcDev.extend_vmas (dev : ScullcDev) (pos : ℤ) :
    (dev.extend pos).vmas = dev.vmas := by
  unfold ScullcDev.extend
  split <;> rfl

structure AfterWrite (dev dev₁ : ScullcDev) : Prop where
  dataAt : ∀ i, dev₁.dataAt i = dev.dataAt i
  quantum : dev₁.quantum = dev.quantum
  qset : dev₁.qset = dev.qset
  vmas : dev₁.vmas = dev.vmas

theorem AfterWrite.quantumAt (h : AfterWrite dev dev₁) (i j : ℕ) :
    dev₁.quantumAt i j = dev.quantumAt i j := by
  rw [ScullcDev.quantumAt, ScullcDev.quantumAt, h.dataAt]

theorem writeCopy_dev (env : Env) (dev : ScullcDev) (heap : Heap) (t : WriteTarget)
    (buf : List UInt8) (pos : ℤ) (aio : Bool) :
    AfterWrite (t.fill dev (copiedIn env buf t.count aio))
      (writeCopy env dev heap t buf pos aio).dev := by
  unfold writeCopy
  split_ifs
  · exact ⟨ScullcDev.unlock_dataAt _, rfl, rfl, rfl⟩
  · refine ⟨fun i => ?_, ?_, ?_, ?_⟩
    · simp
    · exact ScullcDev.extend_quantum ..
    · exact ScullcDev.extend_qset ..
    · exact ScullcDev.extend_vmas ..

theorem isSome_of_mem_copiedIn {buf : List UInt8} {c : Cell}
    (hc : c ∈ copiedIn env buf count aio) : c.isSome := by
  unfold copiedIn at hc
  split at hc
  · obtain ⟨b, -, rfl⟩ := List.mem_map.mp hc
    rfl
  · rcases List.mem_append.mp hc with hc | hc
    · obtain ⟨b, -, rfl⟩ := List.mem_map.mp hc
      rfl
    · rw [List.eq_of_mem_replicate hc]
      rfl

theorem WriteFinds.shaped_fill {t : WriteTarget}
    (h : WriteFinds m dev quantum dev.qset count pos t dev₁) (hdev : Shaped dev)
    (bytes : List Cell) : Shaped (t.fill dev₁ bytes) := by
  intro i data hdata
  rw [WriteTarget.fill, ScullcDev.dataAt_setDataAt _ h.item_le] at hdata
  rw [WriteTarget.fill, ScullcDev.setDataAt_qset, h.qset]
  split at hdata
  · obtain rfl := Option.some.inj hdata
    rw [PtrArray.store_len, h.len_eq, hdev.lenAt]
  · next hi =>
      rw [h.dataAt, if_neg hi] at hdata
      exact hdev i data hdata

/-- Filling keeps what is initialised, if a new quantum has been cleared as far
as transfers can reach. -/
theorem WriteFinds.filled_fill {t : WriteTarget} {qset : ℤ}
    (h : WriteFinds m dev quantum qset count pos t dev₁) (hdev : Filled q dev)
    (hclear : dev.quantumAt t.item t.sPos.toNat = none → q ≤ toUInt64 m.scullcQuantum)
    {bytes : List Cell} (hbytes : ∀ c ∈ bytes, c.isSome) : Filled q (t.fill dev₁ bytes) := by
  intro i j mem hmem o ho
  rw [h.quantumAt_fill] at hmem
  split at hmem
  · obtain rfl := Option.some.inj hmem
    have hcell : (t.mem.cells o).isSome := by
      rcases h.mem_eq with hold | ⟨hnone, -, hcells⟩
      · exact hdev _ _ _ hold o ho
      · rw [hcells]
        simp [Nat.lt_of_lt_of_le ho (hclear hnone)]
    exact overwrite_all hbytes hcell
  · exact hdev i j mem hmem o ho

theorem AfterWrite.shaped (h : AfterWrite dev dev₁) (hdev : Shaped dev) : Shaped dev₁ :=
  fun i data hdata => (hdev i data (h.dataAt i ▸ hdata)).trans h.qset.symm

theorem AfterWrite.filled (h : AfterWrite dev dev₁) (hdev : Filled q dev) : Filled q dev₁ :=
  fun i j mem hmem => hdev i j mem (h.quantumAt i j ▸ hmem)

theorem WriteStops.shaped (h : WriteStops dev dev.qset dev₁) (hdev : Shaped dev) :
    Shaped dev₁ := by
  intro i data hdata
  rw [h.qset]
  rcases h.dataAt i data hdata with hold | ⟨hlen, -⟩
  · exact hdev i data hold
  · exact hlen

theorem WriteStops.filled {qset : ℤ} (h : WriteStops dev qset dev₁) (hdev : Filled q dev) :
    Filled q dev₁ := by
  intro i j mem hmem
  obtain ⟨data, hdata, hslot⟩ := Option.bind_eq_some_iff.mp hmem
  rcases h.dataAt i data hdata with hold | ⟨-, hslots⟩
  · exact hdev i j mem (Option.bind_eq_some_iff.mpr ⟨data, hold, hslot⟩)
  · simp [hslots] at hslot

theorem writeLocked_shaped {buf : List UInt8} {r : Transfer}
    (h : writeLocked env m heap dev quantum dev.qset buf count pos aio = .ok r)
    (hdev : Shaped dev) : Shaped r.dev := by
  rcases writeLocked_ok h with ⟨dev₁, heap₁, htarget, rfl⟩ | ⟨t, dev₁, heap₁, htarget, rfl⟩
  · exact (SameData.refl dev₁).unlock.shaped ((writeTarget_none htarget).shaped hdev)
  · exact (writeCopy_dev ..).shaped ((writeTarget_some htarget).shaped_fill hdev _)

def Allocates (dev : ScullcDev) (quantum qset pos : ℤ) : Prop :=
  ∃ loc, locate quantum qset pos = .ok loc ∧
    dev.quantumAt (toUInt32 loc.item) loc.sPos.toNat = none

theorem writeLocked_filled {buf : List UInt8} {qset : ℤ} {r : Transfer}
    (h : writeLocked env m heap dev quantum qset buf count pos aio = .ok r) (hdev : Filled q dev)
    (hclear : Allocates dev quantum qset pos → q ≤ toUInt64 m.scullcQuantum) :
    Filled q r.dev := by
  rcases writeLocked_ok h with ⟨dev₁, heap₁, htarget, rfl⟩ | ⟨t, dev₁, heap₁, htarget, rfl⟩
  · exact (SameData.refl dev₁).unlock.filled ((writeTarget_none htarget).filled hdev)
  · have hfinds := writeTarget_some htarget
    obtain ⟨item, hloc, hitem⟩ := hfinds.located
    have hnew : dev.quantumAt t.item t.sPos.toNat = none → q ≤ toUInt64 m.scullcQuantum :=
      fun hnone => hclear ⟨_, hloc, by rwa [← hitem]⟩
    exact (writeCopy_dev ..).filled (hfinds.filled_fill hdev hnew fun c => isSome_of_mem_copiedIn)

theorem writeLocked_quantumAt {buf : List UInt8} {qset : ℤ} {r : Transfer}
    (h : writeLocked env m heap dev quantum qset buf count pos aio = .ok r) {i j : ℕ}
    {mem : Quantum} (hmem : r.dev.quantumAt i j = some mem) :
    (∃ old, dev.quantumAt i j = some old) ∨ Allocates dev quantum qset pos := by
  rcases writeLocked_ok h with ⟨dev₁, heap₁, htarget, rfl⟩ | ⟨t, dev₁, heap₁, htarget, rfl⟩
  · left
    rw [(SameData.refl dev₁).unlock.quantumAt] at hmem
    obtain ⟨data, hdata, hslot⟩ := Option.bind_eq_some_iff.mp hmem
    rcases (writeTarget_none htarget).dataAt i data hdata with hold | ⟨-, hslots⟩
    · exact ⟨mem, Option.bind_eq_some_iff.mpr ⟨data, hold, hslot⟩⟩
    · simp [hslots] at hslot
  · have hfinds := writeTarget_some htarget
    obtain ⟨item, hloc, hitem⟩ := hfinds.located
    rw [(writeCopy_dev ..).quantumAt, hfinds.quantumAt_fill] at hmem
    split at hmem
    · next hslot =>
        cases hold : dev.quantumAt i j with
        | some old => exact .inl ⟨old, rfl⟩
        | none => exact .inr ⟨_, hloc, by rw [← hitem, ← hslot.1, ← hslot.2, hold]⟩
    · exact .inl ⟨mem, hmem⟩

theorem writeLocked_geometry {buf : List UInt8} {qset : ℤ} {r : Transfer}
    (h : writeLocked env m heap dev quantum qset buf count pos aio = .ok r) :
    r.dev.quantum = dev.quantum ∧ r.dev.qset = dev.qset ∧ r.dev.vmas = dev.vmas := by
  rcases writeLocked_ok h with ⟨dev₁, heap₁, htarget, rfl⟩ | ⟨t, dev₁, heap₁, htarget, rfl⟩
  · have hstop := writeTarget_none htarget
    exact ⟨hstop.quantum, hstop.qset, hstop.vmas⟩
  · have hfinds := writeTarget_some htarget
    have hafter := writeCopy_dev env dev₁ heap₁ t buf pos aio
    refine ⟨hafter.quantum.trans ?_, hafter.qset.trans ?_, hafter.vmas.trans ?_⟩
    · rw [WriteTarget.fill, ScullcDev.setDataAt_quantum, hfinds.quantum]
    · rw [WriteTarget.fill, ScullcDev.setDataAt_qset, hfinds.qset]
    · rw [WriteTarget.fill, ScullcDev.setDataAt_vmas, hfinds.vmas]

end LddSamples.Scullc

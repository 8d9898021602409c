import LddSamples.Scullc.Concurrent

/-!
# When a transfer returns

On a device with a good geometry, whose quanta fit the objects of the cache, the walk
along the list is all that can stop a critical section, and it stops it when a list
item that has to be added is not granted.
-/

namespace LddSamples.Scullc

open Kernel CArith Outcome

/-- The objects of the cache have room for the quanta of the device and for those that
are allocated now. -/
structure Roomy (m : Module) (dev : ScullcDev) : Prop where
  good : m.Good
  fits : m.scullcQuantum ≤ m.objectSize
  regular : World.Regular dev
  room : dev.quantum ≤ m.objectSize

variable {env : Env} {m : Module} {heap : Heap} {dev dev₁ : ScullcDev} {pos : ℤ}

theorem Roomy.of_sameData (h : Roomy m dev) (hsame : SameData dev dev₁) : Roomy m dev₁ where
  good := h.good
  fits := h.fits
  regular := h.regular.of_sameData hsame
  room := hsame.quantum.symm ▸ h.room

theorem Roomy.locate (h : Roomy m dev) (hpos : 0 ≤ pos) :
    ∃ loc, locate dev.quantum dev.qset pos = .ok loc := by
  obtain ⟨q, s, hg, hq, hs⟩ := h.regular.geometry
  obtain ⟨p, rfl⟩ := Int.eq_ofNat_of_zero_le hpos
  exact ⟨_, by rw [hq, hs, locate_eq hg]⟩

theorem Roomy.index (h : Roomy m dev) (hpos : 0 ≤ pos) {loc : Loc}
    (hloc : Scullc.locate dev.quantum dev.qset pos = .ok loc) (i : ℕ) :
    0 ≤ loc.sPos ∧ loc.sPos < dev.lenAt i dev.qset := by
  rw [h.regular.shaped.lenAt]
  exact h.regular.index hpos hloc

theorem Roomy.inside (h : Roomy m dev) (hpos : 0 ≤ pos) {loc : Loc}
    (hloc : Scullc.locate dev.quantum dev.qset pos = .ok loc) (n : ℕ) :
    Inside m.objectSize loc.qPos (clampCount dev.quantum loc.qPos n) := by
  obtain ⟨q, s, hg, hq, -⟩ := h.regular.geometry
  have hquantum : 0 < dev.quantum := by
    rw [hq]
    exact_mod_cast hg.quantum_pos
  have hint : dev.quantum ≤ INT_MAX := by
    rw [hq]
    exact hg.quantum_le
  obtain ⟨hlow, hhigh⟩ := locate_qPos hloc hpos hquantum
  exact inside_clampCount hlow hhigh hint h.room n

theorem Roomy.clears (h : Roomy m dev) : toUInt64 m.scullcQuantum ≤ m.objectSize := by
  have hclear := toUInt64_quantum h.good
  have hfits := h.fits
  omega

/-- The walk along the list is all that can stop a read. -/
theorem Roomy.readLocked_returns_iff (h : Roomy m dev) (hpos : 0 ≤ pos) (count : ℕ) (aio : Bool) :
    (∃ t, readLocked env m heap dev dev.quantum dev.qset count pos aio = .ok t) ↔
      (toUInt64 pos ≤ dev.size → ∀ loc, Scullc.locate dev.quantum dev.qset pos = .ok loc →
        Grants env heap (toUInt32 loc.item - dev.next.length)) := by
  obtain ⟨loc, hloc⟩ := h.locate hpos
  constructor
  · rintro ⟨t, ht⟩ hsize loc' hloc'
    rw [← scullcFollow_returns_iff]
    rcases readLocked_ok ht with ⟨dev₁, heap₁, htarget, -⟩ | ⟨bytes, dev₁, heap₁, htarget, -⟩ <;>
    · rw [readTarget, if_neg (Nat.not_lt.mpr hsize)] at htarget
      simp only [hloc', ok_bind, bind_eq_ok] at htarget
      obtain ⟨r, hfollow, -⟩ := htarget
      exact ⟨r, hfollow⟩
  · intro hgrants
    cases hread : readLocked env m heap dev dev.quantum dev.qset count pos aio with
    | ok t => exact ⟨t, rfl⟩
    | error f =>
        exfalso
        have htarget := readLocked_error hread
        obtain ⟨hsize, hcases⟩ := readTarget_error htarget
        obtain ⟨r, hfollow⟩ := scullcFollow_returns_iff.mpr (hgrants hsize loc hloc)
        have hafter := readTarget_error_after hloc hfollow htarget
        rcases hcases with rfl | rfl | ⟨loc', data, hloc', hdata, ⟨-, hindex⟩ | ⟨_, -, -, hout⟩⟩
        · simp at hafter
        · simp at hafter
        · rw [h.regular.shaped _ _ hdata] at hindex
          exact hindex (h.regular.index hpos hloc')
        · exact hout (h.inside hpos hloc' _)

theorem Roomy.writeLocked_returns_iff (h : Roomy m dev) (hpos : 0 ≤ pos) (buf : List UInt8)
    (count : ℕ) (aio : Bool) :
    (∃ t, writeLocked env m heap dev dev.quantum dev.qset buf count pos aio = .ok t) ↔
      ∀ loc, Scullc.locate dev.quantum dev.qset pos = .ok loc →
        Grants env heap (toUInt32 loc.item - dev.next.length) := by
  obtain ⟨loc, hloc⟩ := h.locate hpos
  constructor
  · rintro ⟨t, ht⟩ loc' hloc'
    rw [← scullcFollow_returns_iff]
    rcases writeLocked_ok ht with ⟨dev₁, heap₁, htarget, -⟩ | ⟨t, dev₁, heap₁, htarget, -⟩ <;>
    · simp only [writeTarget, hloc', ok_bind, bind_eq_ok] at htarget
      obtain ⟨r, hfollow, -⟩ := htarget
      exact ⟨r, hfollow⟩
  · intro hgrants
    cases hwrite : writeLocked env m heap dev dev.quantum dev.qset buf count pos aio with
    | ok t => exact ⟨t, rfl⟩
    | error f =>
        exfalso
        have htarget := writeLocked_error hwrite
        obtain ⟨r, hfollow⟩ := scullcFollow_returns_iff.mpr (hgrants loc hloc)
        have hafter := writeTarget_error_after hloc hfollow htarget
        rcases writeTarget_error htarget with rfl | rfl |
          ⟨loc', hloc', ⟨-, hindex⟩ | ⟨-, hroom, -⟩ | ⟨-, hout, -⟩⟩
        · simp at hafter
        · simp at hafter
        · exact hindex (h.index hpos hloc' _)
        · exact hroom h.clears
        · exact hout (h.inside hpos hloc' _)

end LddSamples.Scullc

import LddSamples.Scullc.System

/-!
# Quanta and the objects that hold them

The cache hands out objects of the size that `scullc_quantum` had at load time.
A run stays inside them, and reads only initialised bytes, as long as every quantum
that is allocated is cleared at least as far as the device reaches, and no further
than the object.
-/

namespace LddSamples.Scullc

open Kernel CArith Outcome ByteMap

/-- The variables that `scullc_ioctl` is allowed to leave: positive, with a
product that fits an `int`. -/
def Module.Good (m : Module) : Prop :=
  0 < m.scullcQuantum ∧ 0 < m.scullcQset ∧ m.scullcQuantum * m.scullcQset ≤ INT_MAX

/-- A device in shape, whose quanta, if it has any, reach no further than the
objects of the cache. -/
def Sound (objectSize : ℕ) (dev : ScullcDev) : Prop :=
  ∃ q s, Geometry q s ∧ WellFormed q s dev ∧
    ∀ i j mem, dev.quantumAt i j = some mem → q ≤ objectSize

def LeavesObject (f : Fault) : Prop := f = .memsetOutOfBounds ∨ f = .copyOutOfBounds

section Device

variable {env : Env} {m : Module} {heap : Heap} {dev dev₁ : ScullcDev} {count : ℕ} {pos : ℤ}
  {aio : Bool}

theorem Module.Good.geometry (h : m.Good) :
    ∃ q s : ℕ, Geometry q s ∧ m.scullcQuantum = q ∧ m.scullcQset = s := by
  obtain ⟨hquantum, hqset, hfits⟩ := h
  obtain ⟨q, hq⟩ := Int.eq_ofNat_of_zero_le hquantum.le
  obtain ⟨s, hs⟩ := Int.eq_ofNat_of_zero_le hqset.le
  rw [hq, hs] at hfits
  refine ⟨q, s, ⟨?_, ?_, hfits⟩, hq, hs⟩
  · omega
  · omega

theorem sound_of_empty {objectSize : ℕ} (hgood : m.Good) (hquantum : dev.quantum = m.scullcQuantum)
    (hqset : dev.qset = m.scullcQset) (hdata : ∀ i, dev.dataAt i = none) :
    Sound objectSize dev := by
  obtain ⟨q, s, hg, hq, hs⟩ := hgood.geometry
  refine ⟨q, s, hg, wellFormed_of_dataAt_none (hquantum.trans hq) (hqset.trans hs) hdata, ?_⟩
  intro i j mem hmem
  simp [ScullcDev.quantumAt, hdata] at hmem

theorem Sound.of_sameData {objectSize : ℕ} (h : Sound objectSize dev) (hsame : SameData dev dev₁) :
    Sound objectSize dev₁ := by
  obtain ⟨q, s, hg, hdev, hsize⟩ := h
  exact ⟨q, s, hg, hsame.wellFormed hdev, fun i j mem hmem =>
    hsize i j mem (hsame.quantumAt i j ▸ hmem)⟩

theorem Sound.readLocked_stays (hdev : Sound m.objectSize dev) (hpos : 0 ≤ pos) {f : Fault}
    (h : readLocked env m heap dev dev.quantum dev.qset count pos aio = .error f) :
    ¬ LeavesObject f := by
  obtain ⟨q, s, hg, hwf, hsize⟩ := hdev
  rw [hwf.quantum_eq] at h
  have hq : (0 : ℤ) < q := by exact_mod_cast hg.quantum_pos
  rcases (readTarget_error (readLocked_error h)).2 with rfl | rfl |
    ⟨loc, data, hloc, hdata, ⟨rfl, -⟩ | ⟨mem, hfetch, rfl, hout⟩⟩
  · simp [LeavesObject]
  · simp [LeavesObject]
  · simp [LeavesObject]
  · exfalso
    have hslot : dev.quantumAt (toUInt32 loc.item) loc.sPos.toNat = some mem := by
      simp [ScullcDev.quantumAt, hdata, (PtrArray.fetch_eq_ok.mp hfetch).2]
    obtain ⟨hlow, hhigh⟩ := locate_qPos hloc hpos hq
    exact hout (inside_clampCount hlow hhigh hg.quantum_le
      (by exact_mod_cast hsize _ _ _ hslot) _)

theorem Sound.readLocked_initialised (hdev : Sound m.objectSize dev) (hpos : 0 ≤ pos)
    {t : Transfer}
    (h : readLocked env m heap dev dev.quantum dev.qset count pos aio = .ok t) :
    ∀ c ∈ t.out, c.isSome := by
  obtain ⟨q, s, hg, hwf, hsize⟩ := hdev
  rw [hwf.quantum_eq] at h
  have hq : (0 : ℤ) < q := by exact_mod_cast hg.quantum_pos
  rcases readLocked_ok h with ⟨dev₁, heap₁, -, rfl⟩ | ⟨bytes, dev₁, heap₁, htarget, rfl⟩
  · simp
  obtain ⟨-, loc, data, mem, hloc, hdata, hfetch, -, rfl⟩ := (readTarget_some htarget).2
  intro c hc
  have hmem : c ∈ window mem.cells loc.qPos.toNat
      (clampCount q loc.qPos (clampSize dev.size pos count)) := by
    unfold readCopy at hc
    split_ifs at hc
    · exact hc
    · exact List.mem_of_mem_take hc
    · exact hc
  obtain ⟨i, hi, rfl⟩ := List.mem_map.mp hmem
  have hin := List.mem_range.mp hi
  obtain ⟨hlow, hhigh⟩ := locate_qPos hloc hpos hq
  rw [clampCount_of_mem hlow hhigh hg.quantum_le] at hin
  have hslot : dev.quantumAt (toUInt32 loc.item) loc.sPos.toNat = some mem := by
    simp [ScullcDev.quantumAt, hdata, (PtrArray.fetch_eq_ok.mp hfetch).2]
  exact hwf.filled _ _ _ hslot _ (by omega)

/-- A quantum allocated now is cleared as far as the device reaches, and no
further than the object. -/
def AllocatesWell (m : Module) (dev : ScullcDev) (pos : ℤ) : Prop :=
  Allocates dev dev.quantum dev.qset pos →
    dev.quantum ≤ m.scullcQuantum ∧ m.scullcQuantum ≤ m.objectSize

theorem AllocatesWell.lock (h : AllocatesWell m dev pos) : AllocatesWell m dev.lock pos := by
  rintro ⟨loc, hloc, hnone⟩
  rw [(SameData.lock dev).quantumAt] at hnone
  exact h ⟨loc, hloc, hnone⟩

theorem toUInt64_quantum (hgood : m.Good) : (toUInt64 m.scullcQuantum : ℤ) = m.scullcQuantum := by
  obtain ⟨q, s, hg, hq, -⟩ := hgood.geometry
  have hmax := INT_MAX_eq
  have hle := hg.quantum_le
  rw [hq, toUInt64_natCast (by omega)]

theorem Sound.writeLocked_stays {buf : List UInt8} (hdev : Sound m.objectSize dev)
    (hgood : m.Good) (hpos : 0 ≤ pos) (halloc : AllocatesWell m dev pos) {f : Fault}
    (h : writeLocked env m heap dev dev.quantum dev.qset buf count pos aio = .error f) :
    ¬ LeavesObject f := by
  obtain ⟨q, s, hg, hwf, hsize⟩ := hdev
  have hclear := toUInt64_quantum hgood
  have hq : 0 < dev.quantum := by
    rw [hwf.quantum_eq]
    exact_mod_cast hg.quantum_pos
  rcases writeTarget_error (writeLocked_error h) with rfl | rfl |
    ⟨loc, hloc, ⟨rfl, -⟩ | ⟨rfl, hroom, hnone⟩ | ⟨rfl, hout, -⟩⟩
  · simp [LeavesObject]
  · simp [LeavesObject]
  · simp [LeavesObject]
  · obtain ⟨-, hfit⟩ := halloc ⟨loc, hloc, hnone⟩
    exact absurd (by omega) hroom
  · exfalso
    obtain ⟨hlow, hhigh⟩ := locate_qPos hloc hpos hq
    have hfit : dev.quantum ≤ m.objectSize := by
      cases hslot : dev.quantumAt (toUInt32 loc.item) loc.sPos.toNat with
      | none =>
          obtain ⟨hcover, hfit⟩ := halloc ⟨loc, hloc, hslot⟩
          exact hcover.trans hfit
      | some mem =>
          rw [hwf.quantum_eq]
          exact_mod_cast hsize _ _ _ hslot
    have hint : dev.quantum ≤ INT_MAX := by
      rw [hwf.quantum_eq]
      exact hg.quantum_le
    exact hout (inside_clampCount hlow hhigh hint hfit _)

theorem Sound.writeLocked_sound {buf : List UInt8} {r : Transfer}
    (hdev : Sound m.objectSize dev) (hgood : m.Good) (halloc : AllocatesWell m dev pos)
    (h : writeLocked env m heap dev dev.quantum dev.qset buf count pos aio = .ok r) :
    Sound m.objectSize r.dev := by
  obtain ⟨q, s, hg, hwf, hsize⟩ := hdev
  have hclear := toUInt64_quantum hgood
  have hquantum := hwf.quantum_eq
  obtain ⟨hq, hs, -⟩ := writeLocked_geometry h
  have hcover : Allocates dev dev.quantum dev.qset pos → q ≤ toUInt64 m.scullcQuantum := by
    intro hnew
    have := (halloc hnew).1
    omega
  refine ⟨q, s, hg, ⟨hq.trans hquantum, hs.trans hwf.qset_eq, writeLocked_shaped h hwf.shaped,
    writeLocked_filled h hwf.filled hcover⟩, ?_⟩
  intro i j mem hmem
  rcases writeLocked_quantumAt h hmem with ⟨old, hold⟩ | hnew
  · exact hsize i j old hold
  · obtain ⟨hle, hfit⟩ := halloc hnew
    omega

end Device

namespace System

def IoctlGood (sys : System) (call : Call) : Prop :=
  ∀ cmd arg u, call = .ioctl cmd arg u → (scullcIoctl sys.module cmd arg u).2.Good

def WritesWell (sys : System) (call : Call) : Prop :=
  ∀ i pos, sys.Writes call i pos → AllocatesWell sys.module (sys.devs i) pos

/-- No byte outside an object is touched, and what a read delivers has been
initialised. -/
def Stays (sys : System) (call : Call) : Prop :=
  (∀ f, sys.step call = .error f → ¬ LeavesObject f) ∧
    ∀ fd env count given aio file t, call = .read fd env count given aio →
      sys.files fd = some file → 0 ≤ given.getD file.fPos →
      scullcDoRead env sys.module sys.heap (sys.devs file.dev) count (given.getD file.fPos) aio =
        .ok t → ∀ c ∈ t.out, c.isSome

structure SoundSystem (sys : System) : Prop where
  good : sys.module.Good
  sound : ∀ i, Sound sys.module.objectSize (sys.devs i)

theorem initial_sound : SoundSystem initial where
  good := ⟨by decide, by decide, by decide⟩
  sound _ := sound_of_empty (m := Module.initial) ⟨by decide, by decide, by decide⟩ rfl rfl
    (fresh_dataAt _ _)

variable {sys sys' : System} {call : Call}

theorem transfer_error {fd : ℕ} {given : Option ℤ} {go : ScullcDev → ℤ → Except Fault Transfer}
    {f : Fault} (h : sys.transfer fd given go = .error f) :
    ∃ file, sys.files fd = some file ∧ 0 ≤ given.getD file.fPos ∧
      go (sys.devs file.dev) (given.getD file.fPos) = .error f := by
  unfold transfer at h
  split at h
  · cases h
  · next file hfile =>
      split at h
      · cases h
      · next hpos =>
          rcases bind_eq_error.mp h with h | ⟨t, -, h⟩
          · exact ⟨file, hfile, Int.not_lt.mp hpos, h⟩
          · cases h

theorem step_sound (hsys : SoundSystem sys) (hioctl : sys.IoctlGood call)
    (hwrites : sys.WritesWell call) (h : sys.step call = .ok sys') : SoundSystem sys' := by
  have hsize : sys'.module.objectSize = sys.module.objectSize := by
    rcases step_module h with ⟨hmodule, -⟩ | ⟨cmd, arg, u, -, hmodule⟩
    · rw [hmodule]
    · rw [hmodule, scullcIoctl_objectSize]
  constructor
  · rcases step_module h with ⟨hmodule, -⟩ | ⟨cmd, arg, u, hcall, hmodule⟩
    · rw [hmodule]
      exact hsys.good
    · rw [hmodule]
      exact hioctl cmd arg u hcall
  · intro i
    rw [hsize]
    rcases step_devs h i with hsame | ⟨-, hdev⟩ | ⟨pos, hwrite, env, heap, buf, aio, t, hrun, hdev⟩
    · exact (hsys.sound i).of_sameData hsame
    · rw [hdev]
      apply sound_of_empty hsys.good rfl rfl
      intro j
      rw [ScullcDev.unlock_dataAt, trimmed_dataAt]
    · rw [hdev]
      have hlock : Sound sys.module.objectSize (sys.devs i).lock :=
        (hsys.sound i).of_sameData (.lock _)
      exact hlock.writeLocked_sound hsys.good (hwrites i pos hwrite).lock hrun

theorem step_stays (hsys : SoundSystem sys) (hwrites : sys.WritesWell call) : sys.Stays call := by
  have hlock : ∀ i, Sound sys.module.objectSize (sys.devs i).lock := fun i =>
    (hsys.sound i).of_sameData (.lock _)
  constructor
  · intro f h
    cases call with
    | ioctl cmd arg u => cases h
    | openDev fd i flags env =>
        obtain ⟨q, s, -, hwf, -⟩ := hsys.sound i
        obtain ⟨r, hopen⟩ := scullcOpen_returns env sys.module sys.heap hwf.shaped flags
        simp only [step, hopen, ok_bind] at h
        cases h
    | llseek fd off whence =>
        simp only [step] at h
        split at h <;> cases h
    | read fd env count given aio =>
        simp only [step] at h
        obtain ⟨file, -, hpos, h⟩ := transfer_error h
        unfold scullcDoRead at h
        split at h
        · cases h
        · exact (hlock _).readLocked_stays hpos h
    | write fd env buf given aio =>
        simp only [step] at h
        obtain ⟨file, hfile, hpos, h⟩ := transfer_error h
        unfold scullcDoWrite at h
        split at h
        · cases h
        · next hsignal =>
            have hwrite : sys.Writes (.write fd env buf given aio) file.dev
                (given.getD file.fPos) :=
              ⟨fd, env, buf, given, aio, file, rfl, by simpa using hsignal, hfile, rfl, rfl, hpos⟩
            exact (hlock _).writeLocked_stays hsys.good hpos (hwrites _ _ hwrite).lock h
  · rintro fd env count given aio file t rfl hfile hpos h
    unfold scullcDoRead at h
    split at h
    · cases h
      simp
    · exact (hlock _).readLocked_initialised hpos h

/-- In every run whose ioctls leave good variables and whose writes allocate well,
no transfer leaves its object and no read delivers an uninitialised byte. -/
theorem transfers_stay (calls : List Call) (hioctl : Runs.Along step IoctlGood initial calls)
    (hwrites : Runs.Along step WritesWell initial calls) :
    Runs.Along step Stays initial calls := by
  apply Runs.along_of_along (I := SoundSystem) ?_ ?_ initial_sound
    (Runs.along_and.mpr ⟨hioctl, hwrites⟩)
  · intro sys call hsys hC
    exact step_stays hsys hC.2
  · intro sys call sys' hsys hC h
    exact step_sound hsys hC.1 hC.2 h

def shrinkingRun : List Call :=
  [.ioctl SCULLC_IOCTQUANTUM 2000 ⟨none, true⟩, .openDev 0 0 O_WRONLY Env.calm,
    .write 0 Env.calm [7] none false, .llseek 0 0 0, .read 0 Env.calm 1 none false]

theorem transfers_stay_shrinking : Runs.Along step Stays initial shrinkingRun := by
  apply transfers_stay shrinkingRun
  · refine ⟨?_, fun s₁ h₁ => ⟨?_, fun s₂ h₂ => ⟨?_, fun s₃ h₃ => ⟨?_, fun s₄ h₄ => ⟨?_, ?_⟩⟩⟩⟩⟩
    · rintro cmd arg u h
      cases h
      exact ⟨by decide, by decide, by decide⟩
    · rintro cmd arg u h
      cases h
    · rintro cmd arg u h
      cases h
    · rintro cmd arg u h
      cases h
    · rintro cmd arg u h
      cases h
    · intro s₅ h₅
      trivial
  · refine ⟨?_, fun s₁ h₁ => ⟨?_, fun s₂ h₂ => ⟨?_, fun s₃ h₃ => ⟨?_, fun s₄ h₄ => ⟨?_, ?_⟩⟩⟩⟩⟩
    · rintro i pos ⟨_, _, _, _, _, _, h, -⟩
      cases h
    · rintro i pos ⟨_, _, _, _, _, _, h, -⟩
      cases h
    · cases h₁
      cases h₂
      rintro i pos ⟨_, _, _, _, _, file, h, -, hfile, rfl, -⟩ -
      cases h
      obtain rfl : (⟨0, 0⟩ : OpenFile) = file := Option.some.inj hfile
      exact ⟨by decide, by decide⟩
    · rintro i pos ⟨_, _, _, _, _, _, h, -⟩
      cases h
    · rintro i pos ⟨_, _, _, _, _, _, h, -⟩
      cases h
    · intro s₅ h₅
      trivial

/-- After `SCULLC_IOCTQUANTUM` with 8000 and a write-only open, the first write
clears 8000 bytes of an object of 4000. -/
theorem growing_quantum_leaves_object :
    ∃ sys, Runs.exec step initial
        [.ioctl SCULLC_IOCTQUANTUM 8000 ⟨none, true⟩, .openDev 0 0 O_WRONLY Env.calm] = .ok sys ∧
      sys.module.Good ∧
      sys.step (.write 0 Env.calm [7] none false) = .error .memsetOutOfBounds ∧
      ¬ Runs.Along step Stays initial
        [.ioctl SCULLC_IOCTQUANTUM 8000 ⟨none, true⟩, .openDev 0 0 O_WRONLY Env.calm,
          .write 0 Env.calm [7] none false] := by
  refine ⟨_, rfl, ⟨by decide, by decide, by decide⟩, rfl, fun hstays => ?_⟩
  have hlast := ((hstays.2 _ rfl).2 _ rfl).1
  exact hlast.1 .memsetOutOfBounds rfl (.inl rfl)

end System

end LddSamples.Scullc

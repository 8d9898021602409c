import LddSamples.Block.MyRequest
import LddSamples.Block.SectorUnits

/-!
# lab2_block: the size of the ram disk

`my_init` computes `disk_size` from the parameter `size` once, and hands it on as the
length of an area, as an `int` and as a number of sectors. Only the product can go wrong.
-/

namespace LddSamples.Block.MyRequest

open Kernel CArith Outcome
open Sbd (Services)

/-- What `my_init` has set up when it succeeds; `reportedMB` is what it prints. -/
structure Disk where
  diskSize : ℤ
  ramdiskBytes : ℕ
  major : ℤ
  capacity : ℕ
  reportedMB : ℤ

def myInit (services : Services) (diskmb : ℤ) : Except ℤ Disk := do
  let bytes := toUInt64 (diskSize diskmb)
  require (-Kernel.ENOMEM) (services.vmalloc bytes = true)
  require (-Kernel.ENOMEM) (services.blkInitQueue = true)
  require services.registerBlkdev (0 ≤ services.registerBlkdev)
  require (-Kernel.ENOMEM) (services.allocDisk = true)
  let capacity := toUInt64 ((diskSize diskmb).tdiv sectorSize)
  .ok ⟨diskSize diskmb, bytes, services.registerBlkdev, capacity, diskmb⟩

/-- All three sizes are those of a disk of `diskmb` megabytes. -/
structure Disk.Consistent (disk : Disk) (diskmb : ℤ) : Prop where
  positive : 0 < disk.diskSize
  exact : disk.diskSize = diskmb * 2 ^ 20
  allocated : (disk.ramdiskBytes : ℤ) = diskmb * 2 ^ 20
  announced : (disk.capacity * 512 : ℤ) = diskmb * 2 ^ 20

variable {services : Services} {diskmb : ℤ} {disk : Disk}

theorem myInit_ok (h : myInit services diskmb = .ok disk) :
    services.vmalloc (toUInt64 (diskSize diskmb)) = true ∧
      disk = ⟨diskSize diskmb, toUInt64 (diskSize diskmb), services.registerBlkdev,
        toUInt64 ((diskSize diskmb).tdiv sectorSize), diskmb⟩ := by
  simp only [myInit, bind_eq_ok, require_eq_ok, exists_const] at h
  obtain ⟨hvmalloc, -, -, -, hdisk⟩ := h
  exact ⟨hvmalloc, (Except.ok.inj hdisk).symm⟩

/-- An area is granted for a positive `disk_size` only: a negative one is an enormous
`size_t`. -/
theorem diskSize_pos_of_granted (hbounded : services.Bounded)
    (h : services.vmalloc (toUInt64 (diskSize diskmb)) = true) : 0 < diskSize diskmb := by
  by_contra hneg
  have hlow : -2147483648 ≤ diskSize diskmb := by
    unfold diskSize toInt32
    omega
  obtain hzero | hhuge : toUInt64 (diskSize diskmb) = 0 ∨
      9223372036854775808 ≤ toUInt64 (diskSize diskmb) := by
    unfold toUInt64
    omega
  · rw [hzero, hbounded.zero] at h
    cases h
  · rw [hbounded.huge _ hhuge] at h
    cases h

/-- The area and the announced sectors always agree with `disk_size`. -/
theorem sizes_agree (hpos : 0 < diskSize diskmb) :
    (toUInt64 (diskSize diskmb) : ℤ) = diskSize diskmb ∧
      (toUInt64 ((diskSize diskmb).tdiv sectorSize) * 512 : ℤ) = diskSize diskmb := by
  have hmax := diskSize_le diskmb
  have hint := INT_MAX_eq
  have hsectors : diskSize diskmb % 512 = 0 := by
    unfold diskSize toInt32
    omega
  have hquot : (diskSize diskmb).tdiv sectorSize = diskSize diskmb / 512 :=
    Int.tdiv_eq_ediv_of_nonneg hpos.le
  rw [hquot, toUInt64_of_mem hpos.le (by omega), toUInt64_of_mem (by omega) (by omega)]
  omega

/-- The product is exact for up to 2047 megabytes. -/
theorem diskSize_eq_iff (hpos : 0 < diskSize diskmb) :
    diskSize diskmb = diskmb * 2 ^ 20 ↔ 0 < diskmb ∧ diskmb < 2048 := by
  unfold diskSize toInt32 at hpos ⊢
  omega

/-- When `my_init` succeeds, the sizes are those asked for exactly when a positive number of
megabytes below 2048 was asked for. -/
theorem myInit_consistent_iff (hbounded : services.Bounded)
    (hinit : myInit services diskmb = .ok disk) :
    disk.Consistent diskmb ↔ 0 < diskmb ∧ diskmb < 2048 := by
  obtain ⟨hgranted, rfl⟩ := myInit_ok hinit
  have hpos := diskSize_pos_of_granted hbounded hgranted
  obtain ⟨hallocated, hannounced⟩ := sizes_agree hpos
  rw [← diskSize_eq_iff hpos]
  constructor
  · intro hconsistent
    exact hconsistent.exact
  · intro hexact
    exact {
      positive := hpos
      exact := hexact
      allocated := hallocated.trans hexact
      announced := hannounced.trans hexact }

/-- The disk of 128 MB that is the default. -/
theorem myInit_default :
    ∃ disk, myInit Sbd.generous 128 = .ok disk ∧ disk.Consistent 128 := by
  have hinit : myInit Sbd.generous 128 = .ok ⟨134217728, 134217728, 251, 262144, 128⟩ := rfl
  exact ⟨_, hinit, (myInit_consistent_iff Sbd.generous_bounded hinit).mpr (by decide)⟩

/-- With 4097 megabytes the module reports 4097 and has one. -/
theorem myInit_wraps :
    ∃ disk, myInit Sbd.generous 4097 = .ok disk ∧ disk.reportedMB = 4097 ∧
      disk.ramdiskBytes = 2 ^ 20 ∧ ¬ disk.Consistent 4097 := by
  refine ⟨⟨1048576, 1048576, 251, 2048, 4097⟩, rfl, rfl, rfl, fun hconsistent => ?_⟩
  exact absurd hconsistent.exact (by decide)

end LddSamples.Block.MyRequest

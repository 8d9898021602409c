import LddSamples.Block.MyInit

/-!
# The geometry of the two disks

Both drivers make up a geometry of 4 heads and 16 sectors, so that a cylinder is 32 KiB.
The number of cylinders is a sixty-fourth of a size which, for that, has to be in sectors;
it is in bytes.
-/

namespace LddSamples.Block.Geometry

open Kernel CArith Outcome
open Sbd (Services Params sbdInit sbdInit_ok size_of_granted)
open MyRequest (myInit myInit_ok diskSize diskSize_pos_of_granted)

def HDIO_GETGEO : ℕ := 0x0301

/-- `struct hd_geometry`. -/
structure HdGeometry where
  heads : ℕ
  sectors : ℕ
  cylinders : ℕ
  start : ℕ

/-- `size & ~0x3f`. -/
def trim (size : ℤ) : ℤ := size - size % 64

/-- What is assigned to `cylinders`, an `unsigned short`. -/
def cylinderCount (size : ℤ) : ℤ := trim size >>> (6 : ℕ)

/-- The geometry that is faked for a size. -/
def fakeGeometry (start : ℕ) (size : ℤ) : HdGeometry :=
  ⟨4, 16, toUInt16 (cylinderCount size), start⟩

/-- `my_ioctl` of lab2_block; `accessible` says that the user's structure can be written. -/
def myIoctl (diskSize : ℤ) (cmd : ℕ) (accessible : Bool) : Except ℤ HdGeometry := do
  require (-ENOTTY) (cmd = HDIO_GETGEO)
  require (-EFAULT) (accessible = true)
  .ok (fakeGeometry 4 diskSize)

/-- `size` of `sbd_getgeo`, a product of two `unsigned long` that is stored in a `long`. -/
def sbdGetgeoSize (params : Params) : ℤ :=
  toInt64 (params.size * params.logicalBlockSize.tdiv 512)

def sbdGetgeo (params : Params) : HdGeometry := fakeGeometry 0 (sbdGetgeoSize params)

def HdGeometry.bytes (geo : HdGeometry) : ℤ := geo.heads * geo.sectors * geo.cylinders * 512

/-- The geometry made up from `size` describes no more than the disk, and leaves out less
than a cylinder. -/
structure Describes (geo : HdGeometry) (size : ℤ) (disk : ℤ) : Prop where
  fits : 0 ≤ cylinderCount size ∧ cylinderCount size < 65536
  within : geo.bytes ≤ disk
  covers : disk - 32768 < geo.bytes

variable {services : Services} {params : Params} {size disk : ℤ} {start : ℕ}

theorem cylinderCount_eq (size : ℤ) : cylinderCount size = size / 64 := by
  rw [cylinderCount, trim, Int.shiftRight_eq_div_pow]
  omega

/-- A sixty-fourth of the size stands for cylinders of 32 KiB. -/
theorem fakeGeometry_describes_iff :
    Describes (fakeGeometry start size) size disk ↔
      (0 ≤ size / 64 ∧ size / 64 < 65536) ∧
        32768 * (size / 64) ≤ disk ∧ disk < 32768 * (size / 64 + 1) := by
  have hbytes : 0 ≤ size / 64 ∧ size / 64 < 65536 →
      (fakeGeometry start size).bytes = 32768 * (size / 64) := by
    intro hfits
    simp only [HdGeometry.bytes, fakeGeometry, cylinderCount_eq, toUInt16]
    omega
  constructor
  · rintro ⟨hfits, hwithin, hcovers⟩
    rw [cylinderCount_eq] at hfits
    rw [hbytes hfits] at hwithin hcovers
    exact ⟨hfits, hwithin, by omega⟩
  · rintro ⟨hfits, hwithin, hcovers⟩
    refine ⟨by rwa [cylinderCount_eq], ?_, ?_⟩ <;> rw [hbytes hfits] <;> omega

theorem myIoctl_ok {geo : HdGeometry} {cmd : ℕ} {accessible : Bool}
    (h : myIoctl disk cmd accessible = .ok geo) : geo = fakeGeometry 4 disk := by
  simp only [myIoctl, bind_eq_ok, require_eq_ok, exists_const] at h
  obtain ⟨-, -, hgeo⟩ := h
  exact (Except.ok.inj hgeo).symm

/-- From 64 bytes on the made up disk is too large, or its size is cut off. -/
theorem not_describes_of_bytes (hdisk : 64 ≤ disk) :
    ¬ Describes (fakeGeometry start disk) disk disk := by
  rw [fakeGeometry_describes_iff]
  omega

theorem sbdGetgeoSize_eq (hint : params.IsInt) (hsize : params.size < 2147483648) :
    sbdGetgeoSize params = params.size * params.logicalBlockSize.tdiv 512 := by
  have hlow := hint.blockSize_ge
  have hhigh := hint.blockSize_le
  have hmax := INT_MAX_eq
  have hfactor : -4194304 ≤ params.logicalBlockSize.tdiv 512 ∧
      params.logicalBlockSize.tdiv 512 ≤ 4194304 := by
    have hsign : Int.sign 512 = 1 := rfl
    rw [Int.tdiv_eq_ediv, hsign]
    split <;> omega
  have hpos : (0 : ℤ) ≤ params.size := Int.natCast_nonneg _
  have hle : (params.size : ℤ) ≤ 2147483648 := by omega
  apply toInt64_of_mem <;> nlinarith

/-- The factor only has to be harmless for a disk smaller than one cylinder. -/
theorem scaled_describes_iff {factor : ℤ} (hdisk : 0 < disk) :
    Describes (fakeGeometry start (disk * factor)) (disk * factor) disk ↔
      disk < 32768 ∧ 0 ≤ factor ∧ disk * factor < 64 := by
  rw [fakeGeometry_describes_iff]
  constructor
  · rintro ⟨⟨hnonneg, -⟩, hwithin, hcovers⟩
    have hfactor : 0 ≤ factor := by
      by_contra hneg
      have hproduct : disk * factor < 0 := mul_neg_of_pos_of_neg hdisk (by omega)
      omega
    obtain rfl | hone : factor = 0 ∨ 1 ≤ factor := by omega
    · simp at hcovers ⊢
      omega
    · have hlarge : disk ≤ disk * factor := le_mul_of_one_le_right hdisk.le hone
      omega
  · rintro ⟨hsmall, hfactor, hproduct⟩
    have hnonneg : 0 ≤ disk * factor := mul_nonneg hdisk.le hfactor
    omega

/-- No disk of lab2_block is described, and one of sbd only when it is smaller than a
cylinder and its size times the sectors in a block is below 64. -/
theorem geometry_describes_iff (hbounded : services.Bounded) :
    (∀ diskmb disk geo accessible, myInit services diskmb = .ok disk →
      myIoctl disk.diskSize HDIO_GETGEO accessible = .ok geo →
        ¬ Describes geo disk.diskSize disk.diskSize) ∧
    (∀ (params : Params) capacity, params.IsInt → sbdInit services params = .ok capacity →
      (Describes (sbdGetgeo params) (sbdGetgeoSize params) params.size ↔
        params.size < 32768 ∧ 0 ≤ params.logicalBlockSize.tdiv 512 ∧
          params.size * params.logicalBlockSize.tdiv 512 < 64)) := by
  constructor
  · intro diskmb disk geo accessible hinit hgeo
    obtain ⟨hgranted, rfl⟩ := myInit_ok hinit
    have hpos := diskSize_pos_of_granted hbounded hgranted
    rw [myIoctl_ok hgeo]
    apply not_describes_of_bytes
    show 64 ≤ diskSize diskmb
    unfold diskSize toInt32 at hpos ⊢
    omega
  · intro params capacity hint hinit
    obtain ⟨hgranted, -⟩ := sbdInit_ok hinit
    obtain ⟨hsize, hpos⟩ := size_of_granted hbounded hgranted
    have hint32 : params.size < 2147483648 := by
      unfold toInt32 at hsize
      omega
    rw [sbdGetgeo, sbdGetgeoSize_eq hint hint32, scaled_describes_iff (by omega), Nat.cast_lt_ofNat]

/-- For a device of one sector, in blocks of half a sector, the factor is zero. -/
theorem smallDevice_described :
    sbdInit Sbd.generous ⟨2, 256⟩ = .ok 2 ∧
      Describes (sbdGetgeo ⟨2, 256⟩) (sbdGetgeoSize ⟨2, 256⟩) (512 : ℕ) := by
  have hinit : sbdInit Sbd.generous ⟨2, 256⟩ = .ok 2 := rfl
  have hint : Params.IsInt ⟨2, 256⟩ := by constructor <;> decide
  exact ⟨hinit, ((geometry_describes_iff Sbd.generous_bounded).2 _ _ hint hinit).mpr (by decide)⟩

/-- The disk of 128 MB has no cylinders, and sbd's of 512 KiB has 256 MiB of them. -/
theorem defaults_not_described :
    (∃ disk geo, myInit Sbd.generous 128 = .ok disk ∧
      myIoctl disk.diskSize HDIO_GETGEO true = .ok geo ∧ geo.cylinders = 0 ∧
        ¬ Describes geo disk.diskSize disk.diskSize) ∧
    sbdInit Sbd.generous Sbd.defaults = .ok 1024 ∧ Sbd.defaults.size = 2 ^ 19 ∧
      (sbdGetgeo Sbd.defaults).bytes = 2 ^ 28 ∧
        ¬ Describes (sbdGetgeo Sbd.defaults) (sbdGetgeoSize Sbd.defaults) Sbd.defaults.size := by
  constructor
  · refine ⟨⟨134217728, 134217728, 251, 262144, 128⟩, fakeGeometry 4 134217728, rfl, rfl, rfl, ?_⟩
    exact not_describes_of_bytes (by decide)
  · refine ⟨rfl, rfl, rfl, fun hdescribes => ?_⟩
    exact absurd hdescribes.within (by decide)

end LddSamples.Block.Geometry

import LddSamples.Block.Sbd

/-!
# sbd: the two units of a sector

The kernel counts in sectors of 512 bytes whatever `logical_block_size` is. `sbd_init`
announces `nsectors` of them, for a device of `nsectors * logical_block_size` bytes, and
`sbd_transfer` takes each for a logical block.
-/

namespace LddSamples.Block.Sbd

open Kernel CArith Outcome ByteMap

/-- What the kernel grants to `sbd_init`. -/
structure Services where
  vmalloc : ℕ → Bool
  blkInitQueue : Bool
  registerBlkdev : ℤ
  allocDisk : Bool

/-- `sbd_init` ends with an error or adds a disk, and this is the capacity of the disk. -/
def sbdInit (services : Services) (params : Params) : Except ℤ ℕ := do
  require (-Kernel.ENOMEM) (services.vmalloc params.size = true)
  require (-Kernel.ENOMEM) (services.blkInitQueue = true)
  require (-Kernel.ENOMEM) (0 ≤ services.registerBlkdev)
  require (-Kernel.ENOMEM) (services.allocDisk = true)
  .ok (toUInt64 params.nsectors)

/-- There is no area of no bytes, and none that is larger than the address space. -/
structure Services.Bounded (services : Services) : Prop where
  zero : services.vmalloc 0 = false
  huge : ∀ n, 9223372036854775808 ≤ n → services.vmalloc n = false

/-- Both parameters are of type `int`. -/
structure Params.IsInt (params : Params) : Prop where
  nsectors_ge : -2147483648 ≤ params.nsectors
  nsectors_le : params.nsectors ≤ INT_MAX
  blockSize_ge : -2147483648 ≤ params.logicalBlockSize
  blockSize_le : params.logicalBlockSize ≤ INT_MAX

/-- Each request for sectors below the capacity moves the bytes of these sectors; so each
single one of them can be transferred. -/
def ServesSectors (params : Params) (capacity : ℕ) : Prop :=
  ∀ (data : ℕ → UInt8) (rq : Request) (write : Bool) (chunk : Chunk),
    rq.current = some (write, chunk) → chunk.pos + chunk.sectors ≤ capacity →
      sbdTransfer params rq data = .ok (chunk.moved write data)

variable {services : Services} {params : Params} {capacity : ℕ}

theorem sbdInit_ok (h : sbdInit services params = .ok capacity) :
    services.vmalloc params.size = true ∧ capacity = toUInt64 params.nsectors := by
  simp only [sbdInit, bind_eq_ok, require_eq_ok, exists_const] at h
  obtain ⟨hvmalloc, -, -, -, hcapacity⟩ := h
  exact ⟨hvmalloc, (Except.ok.inj hcapacity).symm⟩

/-- The device has some bytes, and not more than an `int` can count. -/
theorem size_of_granted (hbounded : services.Bounded)
    (h : services.vmalloc params.size = true) :
    (params.size : ℤ) = toInt32 (params.nsectors * params.logicalBlockSize) ∧
      0 < params.size := by
  have hzero : params.size ≠ 0 := by
    intro hzero
    rw [hzero, hbounded.zero] at h
    cases h
  have hhuge : params.size < 9223372036854775808 := by
    by_contra hle
    rw [hbounded.huge _ (Nat.not_lt.mp hle)] at h
    cases h
  unfold Params.size toUInt64 toInt32 at hzero hhuge ⊢
  omega

/-- A sector that is taken to be beyond the end is not written. -/
theorem not_serves_of_beyondEnd {pos : ℕ} (hpos : pos + 1 ≤ capacity)
    (hbeyond : BeyondEnd params (params.bytes pos) (params.bytes 1)) :
    ¬ ServesSectors params capacity := by
  intro hserves
  let rq : Request := ⟨0, true, true, [oneSector pos 1]⟩
  have hmoved := hserves (fun _ => 0) rq true (oneSector pos 1) rfl hpos
  have hskipped : sbdTransfer params rq (fun _ => 0) = .ok (fun _ => 0, rq.buffer) := if_pos hbeyond
  have hstored : (oneSector pos 1).buffer[0]? = some 1 := rfl
  rw [hskipped] at hmoved
  exact Chunk.moved_ne hstored (show (0 : UInt8) ≠ 1 by decide) (Except.ok.inj hmoved).symm

/-- The blocks are larger than the buffer of as many sectors. -/
theorem sbdTransfer_overrun {rq : Request} {write : Bool} {chunk : Chunk}
    (hcurrent : rq.current = some (write, chunk))
    (hblock : 512 * chunk.sectors < params.bytes chunk.sectors)
    (hwithin : ¬ BeyondEnd params (params.bytes chunk.pos) (params.bytes chunk.sectors))
    (data : ℕ → UInt8) : sbdTransfer params rq data = .error .copyOutOfBounds := by
  obtain ⟨-, hpos, hsectors, hbuffer⟩ := Request.reads_current hcurrent
  simp only [sbdTransfer, hpos, hsectors, if_neg hwithin]
  apply copyChunk_overrun
  rw [hbuffer, chunk.buffer_length]
  exact hblock

theorem not_serves_of_large (hcapacity : 0 < capacity) (hblock : 512 < params.bytes 1) :
    ¬ ServesSectors params capacity := by
  by_cases hbeyond : BeyondEnd params (params.bytes 0) (params.bytes 1)
  · exact not_serves_of_beyondEnd hcapacity hbeyond
  · intro hserves
    let rq : Request := ⟨0, true, true, [oneSector 0 1]⟩
    have hcurrent : rq.current = some (true, oneSector 0 1) := rfl
    have hmoved := hserves (fun _ => 0) rq true (oneSector 0 1) hcurrent hcapacity
    rw [sbdTransfer_overrun hcurrent hblock hbeyond] at hmoved
    cases hmoved

theorem serves_of_sectors (hblock : params.logicalBlockSize = 512)
    (hsize : params.size = 512 * capacity) (hcounted : 512 * capacity < 2147483648) :
    ServesSectors params capacity := by
  intro data rq write chunk hcurrent hbelow
  obtain ⟨hwrite, hpos, hsectors, hbuffer⟩ := Request.reads_current hcurrent
  have hend : 512 * chunk.pos + 512 * chunk.sectors ≤ params.size := by omega
  have hwithin : ¬ BeyondEnd params (512 * chunk.pos) (512 * chunk.sectors) := by
    rw [BeyondEnd, Nat.mod_eq_of_lt (by omega)]
    omega
  have hcopy := copyChunk_eq data hend (hbuffer ▸ chunk.buffer_length)
  simp only [sbdTransfer, hpos, hsectors]
  rw [Params.bytes_of_sectors hblock (by omega), Params.bytes_of_sectors hblock (by omega),
    if_neg hwithin, hcopy, hwrite, hbuffer, Chunk.moved]

/-- The sector at 2 GiB is beyond the end of any device. -/
theorem not_serves_of_many (hblock : params.logicalBlockSize = 512)
    (hsize : params.size < 2147483648) (hcapacity : 4194304 ≤ capacity) :
    ¬ ServesSectors params capacity := by
  refine not_serves_of_beyondEnd (show 4194303 + 1 ≤ capacity from hcapacity) ?_
  rw [Params.bytes_of_sectors hblock (by decide), Params.bytes_of_sectors hblock (by decide),
    BeyondEnd]
  exact hsize

/-- The device serves the sectors it announces exactly when the two units agree and the
bytes of all sectors are counted by an `int`. -/
theorem servesSectors_iff (hint : params.IsInt) (hbounded : services.Bounded)
    (hpositive : 0 < params.logicalBlockSize) (hmultiple : 512 ∣ params.logicalBlockSize)
    (hinit : sbdInit services params = .ok capacity) :
    ServesSectors params capacity ↔
      params.logicalBlockSize = 512 ∧ 0 < params.nsectors ∧ 512 * params.nsectors ≤ INT_MAX := by
  obtain ⟨hgranted, rfl⟩ := sbdInit_ok hinit
  obtain ⟨hsize, hsome⟩ := size_of_granted hbounded hgranted
  have hmax := INT_MAX_eq
  have hlow := hint.nsectors_ge
  have hhigh := hint.nsectors_le
  constructor
  · intro hserves
    have hblock : params.logicalBlockSize = 512 := by
      by_contra hother
      have hnsectors : params.nsectors ≠ 0 := by
        intro hnone
        rw [hnone, Int.zero_mul] at hsize
        exact absurd hsize (by simpa [toInt32] using hsome.ne')
      have hblock_le := hint.blockSize_le
      have hlarge : 512 < params.logicalBlockSize := by omega
      refine not_serves_of_large ?_ ?_ hserves
      · unfold toUInt64
        omega
      · rw [Params.bytes, Nat.cast_one, Int.one_mul]
        unfold toUInt64
        omega
    rw [hblock] at hsize
    refine ⟨hblock, ?_⟩
    by_contra hmany
    refine not_serves_of_many hblock ?_ ?_ hserves
    · unfold toInt32 at hsize
      omega
    · unfold toUInt64
      unfold toInt32 at hsize
      omega
  · rintro ⟨hblock, hnsectors, hcounted⟩
    rw [hblock, toInt32_of_mem (by omega) (by omega)] at hsize
    have hcapacity : (toUInt64 params.nsectors : ℤ) = params.nsectors :=
      toUInt64_of_mem (by omega) (by omega)
    exact serves_of_sectors hblock (by omega) (by omega)

/-- A kernel that gives out areas of up to 1 GiB. -/
def generous : Services := ⟨fun n => decide (0 < n ∧ n ≤ 1073741824), true, 251, true⟩

theorem generous_bounded : generous.Bounded where
  zero := rfl
  huge := fun n hn => decide_eq_false (by omega)

/-- The device with the parameters it comes with. -/
theorem defaults_servesSectors :
    sbdInit generous defaults = .ok 1024 ∧ ServesSectors defaults 1024 := by
  have hinit : sbdInit generous defaults = .ok 1024 := rfl
  refine ⟨hinit, (servesSectors_iff ?_ generous_bounded ?_ ?_ hinit).mpr ?_⟩
  · constructor <;> decide
  · decide
  · decide
  · decide

/-- With blocks of 1024 bytes the two sectors of the first block cannot be written. -/
theorem kibBlock_overruns :
    sbdInit generous ⟨1024, 1024⟩ = .ok 1024 ∧
      sbdTransfer ⟨1024, 1024⟩ ⟨0, true, true, [uniformChunk 0 Nat.two_pos 7]⟩ (fun _ => 0) =
        .error .copyOutOfBounds ∧
      ¬ ServesSectors ⟨1024, 1024⟩ 1024 := by
  let rq : Request := ⟨0, true, true, [uniformChunk 0 Nat.two_pos 7]⟩
  have hcurrent : rq.current = some (true, uniformChunk 0 Nat.two_pos 7) := rfl
  have hblock : 512 * 2 < Params.bytes ⟨1024, 1024⟩ 2 := by decide
  have hwithin : ¬ BeyondEnd ⟨1024, 1024⟩ (Params.bytes ⟨1024, 1024⟩ 0)
      (Params.bytes ⟨1024, 1024⟩ 2) := by decide
  have hlarge : 512 < Params.bytes ⟨1024, 1024⟩ 1 := by decide
  exact ⟨rfl, sbdTransfer_overrun hcurrent hblock hwithin _,
    not_serves_of_large (by decide) hlarge⟩

end LddSamples.Block.Sbd

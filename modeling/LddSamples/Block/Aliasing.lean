import LddSamples.Block.MyRequest

/-!
# lab2_block: requests beyond 4 GiB

`my_request` cuts the position to an `unsigned`, multiplies it by `sector_size` in 32 bits,
and keeps the number of bytes in an `int`. What it tests and moves is another request as
soon as a bit is lost, and this module says for which requests that is seen.
-/

namespace LddSamples.Block.MyRequest

open Kernel CArith Outcome ByteMap

variable {diskmb : ℤ} {pos sectors : ℕ}

/-- A request moves the bytes of its own sectors, and nothing when they are not all inside
the disk. -/
def OwnSectorsOnly (diskmb : ℤ) (pos sectors : ℕ) : Prop :=
  ∀ (ramdisk : ℕ → UInt8) (rq : Request) (write : Bool) (chunk : Chunk),
    rq.isFs = true → rq.current = some (write, chunk) → chunk.pos = pos →
      chunk.sectors = sectors →
        transfer diskmb rq ramdisk = .ok
          (if chunk.InsideDisk (diskSize diskmb) then chunk.moved write ramdisk
            else (ramdisk, chunk.buffer))

/-- The range is inside the disk. -/
def InRange (diskmb : ℤ) (pos sectors : ℕ) : Prop :=
  ((512 * pos + 512 * sectors : ℕ) : ℤ) ≤ diskSize diskmb

/-- What 32 bits keep of the position and of the length goes beyond the end of the disk; a
length of 2 GiB or more counts as negative. -/
def AliasBeyondEnd (diskmb : ℤ) (pos sectors : ℕ) : Prop :=
  (sectors % 8388608 < 4194304 ∧
      diskSize diskmb < (512 * (pos % 8388608) + 512 * (sectors % 8388608) : ℕ)) ∨
    (4194304 ≤ sectors % 8388608 ∧
      diskSize diskmb + 4294967296 < (512 * (pos % 8388608) + 512 * (sectors % 8388608) : ℕ))

instance (diskmb : ℤ) (pos sectors : ℕ) : Decidable (AliasBeyondEnd diskmb pos sectors) :=
  inferInstanceAs (Decidable (_ ∨ _))

/-- `n * sector_size`, computed in 32 bits. -/
theorem toUInt32_sectors (n : ℕ) :
    toUInt32 (toUInt32 n * sectorSize : ℕ) = 512 * (n % 8388608) := by
  unfold toUInt32 sectorSize
  omega

theorem toInt32_sectors (n : ℕ) : toInt32 (toUInt32 n * sectorSize : ℕ) =
    if n % 8388608 < 4194304 then 512 * ((n % 8388608 : ℕ) : ℤ)
    else 512 * ((n % 8388608 : ℕ) : ℤ) - 4294967296 := by
  unfold toInt32 toUInt32 sectorSize
  split <;> omega

/-- The end test, on what 32 bits keep. -/
theorem transfer_cut (ramdisk : ℕ → UInt8) {rq : Request} {write : Bool} {chunk : Chunk}
    (hfs : rq.isFs = true) (hcurrent : rq.current = some (write, chunk)) :
    transfer diskmb rq ramdisk =
      if AliasBeyondEnd diskmb chunk.pos chunk.sectors then .ok (ramdisk, chunk.buffer)
      else copyChunk (diskSize diskmb).toNat ramdisk ((512 * (chunk.pos % 8388608) : ℕ))
        (toUInt64 (toInt32 (toUInt32 chunk.sectors * sectorSize : ℕ))) rq := by
  obtain ⟨-, hpos, hsectors, hbuffer⟩ := Request.reads_current hcurrent
  simp only [transfer, hfs, Bool.not_true, Bool.false_eq_true, if_false, hpos, hsectors, hbuffer,
    toUInt32_sectors]
  refine if_congr ?_ rfl rfl
  unfold AliasBeyondEnd
  rw [toInt32_sectors]
  constructor
  · intro hend
    split at hend <;> omega
  · intro hend
    split <;> omega

/-- A multiple of 4 GiB is a copy of no bytes. -/
theorem transfer_nothing (ramdisk : ℕ → UInt8) {rq : Request} {write : Bool} {chunk : Chunk}
    (hfs : rq.isFs = true) (hcurrent : rq.current = some (write, chunk))
    (hzero : chunk.sectors % 8388608 = 0) :
    transfer diskmb rq ramdisk = .ok (ramdisk, chunk.buffer) := by
  obtain ⟨-, -, -, hbuffer⟩ := Request.reads_current hcurrent
  have hsize : toInt32 (toUInt32 chunk.sectors * sectorSize : ℕ) = 0 := by
    rw [toInt32_sectors, hzero]
    rfl
  have hlength : toUInt64 0 = 0 := rfl
  rw [transfer_cut ramdisk hfs hcurrent, hsize, hlength]
  split
  · rfl
  · have hfits : Inside (diskSize diskmb).toNat (512 * (chunk.pos % 8388608) : ℕ) 0 ∧
        0 ≤ rq.buffer.length := ⟨.inl rfl, Nat.zero_le _⟩
    rw [copyChunk, require_of hfits, ok_bind, hbuffer, List.take_zero, List.drop_zero,
      overwrite_nil, window_zero, List.nil_append, ite_self]

/-- A request of some bytes that passes the test writes the first of them, wherever that is. -/
theorem aliasBeyondEnd_of_own (h : OwnSectorsOnly diskmb pos sectors)
    (hout : ¬ InRange diskmb pos sectors) (hkept : sectors % 8388608 ≠ 0) :
    AliasBeyondEnd diskmb pos sectors := by
  by_contra hwithin
  have hsectors : 0 < sectors := Nat.pos_of_ne_zero fun hnone => hkept (by rw [hnone])
  let chunk := uniformChunk pos hsectors 1
  let rq : Request := ⟨0, true, true, [chunk]⟩
  have hcurrent : rq.current = some (true, chunk) := rfl
  have hlength : chunk.sectors % 8388608 ≠ 0 := hkept
  have houtside : ¬ chunk.InsideDisk (diskSize diskmb) := hout
  have haccepted : ¬ AliasBeyondEnd diskmb chunk.pos chunk.sectors := hwithin
  have hright := h (fun _ => 0) rq true chunk rfl hcurrent rfl rfl
  rw [transfer_cut (fun _ => 0) rfl hcurrent, if_neg haccepted, if_neg houtside] at hright
  refine copyChunk_changes ?_ rfl ?_ (show (0 : UInt8) ≠ 1 by decide) hright
  · rw [toInt32_sectors]
    unfold toUInt64
    split <;> omega
  · exact List.getElem?_replicate_of_lt (by omega)

/-- A request is treated right exactly when it is inside the disk, or 32 bits keep nothing of
its length, or the end test turns away what they keep of it. -/
theorem ownSectorsOnly_iff (diskmb : ℤ) (pos sectors : ℕ) :
    OwnSectorsOnly diskmb pos sectors ↔
      InRange diskmb pos sectors ∨ sectors % 8388608 = 0 ∨
        AliasBeyondEnd diskmb pos sectors := by
  constructor
  · intro h
    by_cases hin : InRange diskmb pos sectors
    · exact .inl hin
    · by_cases hkept : sectors % 8388608 = 0
      · exact .inr (.inl hkept)
      · exact .inr (.inr (aliasBeyondEnd_of_own h hin hkept))
  · rintro hcases ramdisk rq write chunk hfs hcurrent rfl rfl
    split
    · next hinside => exact transfer_eq ramdisk hfs hcurrent hinside
    · next hout =>
        rcases hcases with hin | hzero | hbeyond
        · exact absurd hin hout
        · exact transfer_nothing ramdisk hfs hcurrent hzero
        · rw [transfer_cut ramdisk hfs hcurrent, if_pos hbeyond]

/-- A write to the sector at 4 GiB is a write to sector 0. -/
theorem fourGiB_overwrites_start :
    transfer 128 ⟨0, true, true, [oneSector 8388608 7]⟩ (fun _ => 0) =
        .ok ((oneSector 0 7).moved true fun _ => 0) ∧
      ¬ InRange 128 8388608 1 ∧ ¬ OwnSectorsOnly 128 8388608 1 := by
  let rq : Request := ⟨0, true, true, [oneSector 8388608 7]⟩
  have hcurrent : rq.current = some (true, oneSector 8388608 7) := rfl
  have htransfer : transfer 128 rq (fun _ => 0) =
      .ok ((oneSector 0 7).moved true fun _ => 0) := by
    have haccepted : ¬ AliasBeyondEnd 128 (oneSector 8388608 7).pos 1 := by decide
    have hinside : 0 + 512 ≤ (diskSize 128).toNat := by decide
    have hlength : rq.buffer.length = 512 := List.length_replicate
    have hcopy := copyChunk_eq (fun _ => 0) hinside hlength
    have hpos : (oneSector 8388608 7).pos = 8388608 := rfl
    have hsectors : (oneSector 8388608 7).sectors = 1 := rfl
    have hsize : toUInt64 (toInt32 (toUInt32 (1 : ℕ) * sectorSize : ℕ)) = 512 := by decide
    rw [transfer_cut _ rfl hcurrent, hsectors, if_neg haccepted, hpos, hsize, Nat.mod_self,
      Nat.mul_zero, hcopy]
    rfl
  have hout : ¬ InRange 128 8388608 1 := by
    show ¬ ((512 * 8388608 + 512 * 1 : ℕ) : ℤ) ≤ 134217728
    decide
  refine ⟨htransfer, hout, fun hown => ?_⟩
  have houtside : ¬ (oneSector 8388608 7).InsideDisk (diskSize 128) := hout
  have hright := hown (fun _ => 0) rq true (oneSector 8388608 7) rfl hcurrent rfl rfl
  rw [if_neg houtside, htransfer] at hright
  have hstored : (oneSector 0 7).buffer[0]? = some 7 := rfl
  exact Chunk.moved_ne hstored (show (0 : UInt8) ≠ 7 by decide) (Except.ok.inj hright)

end LddSamples.Block.MyRequest

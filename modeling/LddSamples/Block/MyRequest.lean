import LddSamples.Block.Requests

/-!
# lab2_block: the request routine of the ram disk

`my_request` takes one chunk at a time. A chunk that is not for the disk, or not inside
it, is skipped, and every chunk is completed with the one result, which is 0.
-/

namespace LddSamples.Block.MyRequest

open Kernel CArith Outcome ByteMap

/-- `disk_size`, an `int`, for a disk of `diskmb` megabytes. -/
def diskSize (diskmb : ℤ) : ℤ := toInt32 (diskmb * 1024 * 1024)

def sectorSize : ℕ := 512

/-- What `my_request` does with a chunk before `done`. -/
def transfer (diskmb : ℤ) (rq : Request) (ramdisk : ℕ → UInt8) :
    Except Fault ((ℕ → UInt8) × List UInt8) :=
  if !rq.isFs then .ok (ramdisk, rq.buffer)
  else
    let nrSectors := toUInt32 rq.blkRqCurSectors
    let sector := toUInt32 rq.blkRqPos
    let offset := toUInt32 (sector * sectorSize : ℕ)
    let size := toInt32 (nrSectors * sectorSize : ℕ)
    if offset + size > diskSize diskmb then .ok (ramdisk, rq.buffer)
    else copyChunk (diskSize diskmb).toNat ramdisk offset (toUInt64 size) rq

/-- One round of the loop of `my_request`; nothing is assigned to `res`. -/
def myRequest (diskmb : ℤ) (s : Service) : Except Fault Service :=
  let res := 0
  match s.rq with
  | none => .ok s
  | some rq => s.serveCurrent (transfer diskmb) res rq

/-- A queue of requests for the disk, with all chunks inside it. -/
def Regular (diskmb : ℤ) (queue : List Request) : Prop :=
  ∀ rq ∈ queue, rq.isFs = true ∧ ∀ chunk ∈ rq.chunks, chunk.InsideDisk (diskSize diskmb)

/-- A chunk is reported as done only if it was transferred; one that is past the end of
the disk, or of another kind of request, fails and leaves no trace. -/
structure Reports (size : ℤ) (c : Completion) : Prop where
  success : c.status = 0 → c.Transferred
  beyond : ∀ write chunk, c.rq.current = some (write, chunk) → ¬ chunk.InsideDisk size →
    c.status ≠ 0
  notFs : c.rq.isFs = false → c.status ≠ 0
  failure : c.status ≠ 0 → c.after = c.before ∧ c.buffer = c.rq.buffer

/-- The disk was served as an array of sectors. -/
structure Serves (ramdisk : ℕ → UInt8) (queue : List Request) (t : Service) : Prop where
  inOrder : t.completed.filterMap (fun c => c.rq.current) =
    queue.flatMap fun rq => rq.chunks.map fun chunk => (rq.write, chunk)
  ended : t.ended = queue.map Request.addr
  succeeded : ∀ c ∈ t.completed, c.status = 0 ∧ c.Transferred
  content : t.disk = lastStored ramdisk (stored t.completed)
  reads : ∀ pre c post chunk, t.completed = pre ++ c :: post →
    c.rq.current = some (false, chunk) →
      c.buffer = window (lastStored ramdisk (stored pre)) (512 * chunk.pos) (512 * chunk.sectors)

variable {diskmb : ℤ} {ramdisk : ℕ → UInt8} {queue : List Request} {t : Service}

theorem ends_iff : Service.Ends (myRequest diskmb) (.start ramdisk queue) t ↔
    ∃ last log, serveAll (transfer diskmb) 0 ramdisk (queue.flatMap visits) = .ok (last, log) ∧
      t = ⟨last, [], none, log, queue.map Request.addr⟩ := by
  apply Service.ends_start_iff (P := fun _ => True)
  · intro s rq hrq _
    simp only [myRequest, hrq]
  · intro _ _
    trivial

theorem diskSize_le (diskmb : ℤ) : diskSize diskmb ≤ INT_MAX := by
  unfold diskSize toInt32 INT_MAX
  omega

/-- For a chunk inside the disk no number is cut off. -/
theorem transfer_eq (ramdisk : ℕ → UInt8) {rq : Request} {write : Bool} {chunk : Chunk}
    (hfs : rq.isFs = true) (hcurrent : rq.current = some (write, chunk))
    (hinside : chunk.InsideDisk (diskSize diskmb)) :
    transfer diskmb rq ramdisk = .ok (chunk.moved write ramdisk) := by
  obtain ⟨hwrite, hpos, hsectors, hbuffer⟩ := Request.reads_current hcurrent
  have hmax := diskSize_le diskmb
  have hint := INT_MAX_eq
  have hlen := chunk.buffer_length
  unfold Chunk.InsideDisk at hinside
  have hoffset : toUInt32 (toUInt32 chunk.pos * sectorSize : ℕ) = 512 * chunk.pos := by
    rw [toUInt32_natCast (n := chunk.pos) (by omega), sectorSize, toUInt32_natCast (by omega),
      Nat.mul_comm]
  have hsize : toInt32 (toUInt32 chunk.sectors * sectorSize : ℕ) = (512 * chunk.sectors : ℕ) := by
    rw [toUInt32_natCast (n := chunk.sectors) (by omega), sectorSize,
      toInt32_of_mem (by omega) (by omega), Nat.mul_comm]
  have hfits : ¬ ((512 * chunk.pos : ℕ) : ℤ) + (512 * chunk.sectors : ℕ) > diskSize diskmb := by
    omega
  have hend : 512 * chunk.pos + 512 * chunk.sectors ≤ (diskSize diskmb).toNat := by omega
  have hcopy := copyChunk_eq ramdisk hend (by rw [hbuffer, hlen])
  simp only [transfer, hfs, Bool.not_true, Bool.false_eq_true, if_false, hpos, hsectors, hoffset,
    hsize, if_neg hfits]
  rw [toUInt64_natCast (by omega), hcopy, hwrite, hbuffer, Chunk.moved]

theorem transfer_empty {rq : Request} (hfs : rq.isFs = true) (hcurrent : rq.current = none) :
    transfer diskmb rq ramdisk = .ok (ramdisk, []) := by
  obtain ⟨hpos, hsectors, hbuffer⟩ := Request.reads_nothing hcurrent
  have hcopy := copyChunk_eq ramdisk (Nat.zero_le (diskSize diskmb).toNat)
    (show rq.buffer.length = 0 by rw [hbuffer, List.length_nil])
  have hzero : toUInt32 0 = 0 := rfl
  have hnone : toInt32 0 = 0 := rfl
  simp only [transfer, hfs, Bool.not_true, Bool.false_eq_true, if_false, hpos, hsectors,
    Nat.cast_zero, hzero, Nat.zero_mul, hnone, hbuffer]
  split
  · rfl
  · have hlength : toUInt64 0 = 0 := rfl
    rw [hlength, hcopy, hbuffer, overwrite_nil, window_zero, ite_self]

/-- What is inside the disk is transferred. -/
theorem transfer_transfers (ramdisk : ℕ → UInt8) {rq : Request} (hfs : rq.isFs = true)
    (hinside : ∀ write chunk, rq.current = some (write, chunk) →
      chunk.InsideDisk (diskSize diskmb)) :
    ∃ after buffer, transfer diskmb rq ramdisk = .ok (after, buffer) ∧
      ∀ status, (⟨rq, ramdisk, after, buffer, status⟩ : Completion).Transferred := by
  cases hcurrent : rq.current with
  | none =>
      refine ⟨ramdisk, [], transfer_empty hfs hcurrent, fun status => ?_⟩
      simp only [Completion.Transferred, hcurrent]
  | some current =>
      obtain ⟨write, chunk⟩ := current
      exact ⟨_, _, transfer_eq ramdisk hfs hcurrent (hinside _ _ hcurrent),
        fun status => Completion.transferred_of_moved status hcurrent rfl⟩

theorem Regular.exists_served (h : Regular diskmb queue) (ramdisk : ℕ → UInt8) :
    ∃ last log, serveAll (transfer diskmb) 0 ramdisk (queue.flatMap visits) = .ok (last, log) ∧
      ∀ c ∈ log, c.status = 0 ∧ c.Transferred := by
  obtain ⟨last, log, hserve⟩ : ∃ last log,
      serveAll (transfer diskmb) 0 ramdisk (queue.flatMap visits) = .ok (last, log) := by
    apply exists_serveAll
    intro r hr disk
    obtain ⟨hfs, hinside⟩ := forall_visits.mpr h r hr
    obtain ⟨after, buffer, htransfer, -⟩ := transfer_transfers disk hfs hinside
    exact ⟨(after, buffer), htransfer⟩
  refine ⟨last, log, hserve, fun c hc => ?_⟩
  obtain ⟨hstatus, htransfer⟩ := serveAll_mem hserve hc
  have hvisit : c.rq ∈ queue.flatMap visits := by
    rw [← serveAll_rqs hserve]
    exact List.mem_map_of_mem hc
  obtain ⟨hfs, hinside⟩ := forall_visits.mpr h c.rq hvisit
  obtain ⟨after, buffer, htransfer', hmoved⟩ := transfer_transfers c.before hfs hinside
  obtain ⟨rfl, rfl⟩ := Prod.mk.inj (Except.ok.inj (htransfer'.symm.trans htransfer))
  exact ⟨hstatus, hmoved c.status⟩

/-- The loop ends, and the disk has been served as an array of sectors. -/
theorem myRequest_serves (diskmb : ℤ) (ramdisk : ℕ → UInt8) (queue : List Request)
    (h : Regular diskmb queue) :
    ∃ t, Service.Ends (myRequest diskmb) (.start ramdisk queue) t ∧ Serves ramdisk queue t := by
  obtain ⟨last, log, hserve, hlog⟩ := h.exists_served ramdisk
  have hmoved : ∀ c ∈ log, c.Transferred := fun c hc => (hlog c hc).2
  refine ⟨_, ends_iff.mpr ⟨last, log, hserve, rfl⟩, ?_⟩
  exact {
    inOrder := by
      have hrqs := congrArg (List.filterMap Request.current) (serveAll_rqs hserve)
      rw [List.filterMap_map, List.filterMap_flatMap] at hrqs
      simp only [visits_current] at hrqs
      exact hrqs
    ended := rfl
    succeeded := hlog
    content := serveAll_last hserve hmoved
    reads := by
      intro pre c post chunk hsplit hcurrent
      obtain rfl : log = pre ++ c :: post := hsplit
      have hbefore := serveAll_before hserve fun d hd => hmoved d (List.mem_append_left _ hd)
      have hread := hmoved c (by simp)
      simp only [Completion.Transferred, hcurrent] at hread
      rw [hread.2, hbefore] }

theorem writeThenRead_serves :
    ∃ t, Service.Ends (myRequest 128)
        (.start (fun _ => 0) [⟨0, true, true, [oneSector 8 7, oneSector 9 5]⟩,
          ⟨1, true, false, [oneSector 8 0]⟩]) t ∧
      Serves (fun _ => 0) [⟨0, true, true, [oneSector 8 7, oneSector 9 5]⟩,
        ⟨1, true, false, [oneSector 8 0]⟩] t := by
  apply myRequest_serves
  have hinside : ∀ pos ≤ 9, ∀ byte, (oneSector pos byte).InsideDisk (diskSize 128) := by
    intro pos hpos byte
    show ((512 * pos + 512 * 1 : ℕ) : ℤ) ≤ 134217728
    omega
  simp [Regular, hinside]

/-- Every failure is reported exactly when there is none. -/
theorem reports_iff (diskmb : ℤ) (ramdisk : ℕ → UInt8) (queue : List Request) :
    (∃ t, Service.Ends (myRequest diskmb) (.start ramdisk queue) t ∧
      ∀ c ∈ t.completed, Reports (diskSize diskmb) c) ↔ Regular diskmb queue := by
  constructor
  · rintro ⟨t, hends, hreports⟩
    obtain ⟨last, log, hserve, rfl⟩ := ends_iff.mp hends
    apply forall_visits.mp
    intro r hr
    obtain ⟨c, hc, rfl⟩ := serveAll_visit hserve hr
    obtain ⟨hstatus, -⟩ := serveAll_mem hserve hc
    constructor
    · by_contra hfs
      exact (hreports c hc).notFs (Bool.eq_false_iff.mpr hfs) hstatus
    · intro write chunk hcurrent
      by_contra hbeyond
      exact (hreports c hc).beyond _ _ hcurrent hbeyond hstatus
  · intro h
    obtain ⟨last, log, hserve, hlog⟩ := h.exists_served ramdisk
    refine ⟨_, ends_iff.mpr ⟨last, log, hserve, rfl⟩, fun c hc => ?_⟩
    obtain ⟨hstatus, hmoved⟩ := hlog c hc
    have hvisit : c.rq ∈ queue.flatMap visits := by
      rw [← serveAll_rqs hserve]
      exact List.mem_map_of_mem hc
    obtain ⟨hfs, hinside⟩ := forall_visits.mpr h c.rq hvisit
    exact {
      success := fun _ => hmoved
      beyond := fun write chunk hcurrent hbeyond => absurd (hinside _ _ hcurrent) hbeyond
      notFs := fun hnot => by
        rw [hfs] at hnot
        cases hnot
      failure := fun hne => absurd hstatus hne }

/-- A write of the sector after the last one succeeds and writes nothing. -/
theorem pastEnd_succeeds :
    ∃ t, Service.Ends (myRequest 128)
        (.start (fun _ => 0) [⟨0, true, true, [oneSector 262144 7]⟩]) t ∧
      t.completed.map Completion.status = [0] ∧ t.disk = (fun _ => 0) ∧
      ¬ ∀ c ∈ t.completed, Reports (diskSize 128) c := by
  refine ⟨_, ⟨1, rfl, rfl⟩, rfl, rfl, fun hreports => ?_⟩
  have hc := hreports _ List.mem_cons_self
  refine hc.beyond true (oneSector 262144 7) rfl ?_ rfl
  intro hinside
  exact absurd hinside (by decide)

end LddSamples.Block.MyRequest

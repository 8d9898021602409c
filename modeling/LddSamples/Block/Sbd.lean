import LddSamples.Block.Requests

/-!
# sbd: the request routine of the simple block driver

`sbd_request` takes one chunk at a time and fetches the next request when
`__blk_end_request_cur` has finished one. A request that is not for the disk is completed
at once, and the loop goes on without fetching.
-/

namespace LddSamples.Block.Sbd

open Kernel CArith Outcome

/-- The parameters of the module. -/
structure Params where
  nsectors : ℤ
  logicalBlockSize : ℤ

def defaults : Params := ⟨1024, 512⟩

namespace Params

/-- `Device.size`, an `unsigned long` that is assigned an `int`. -/
def size (params : Params) : ℕ := toUInt64 (toInt32 (params.nsectors * params.logicalBlockSize))

/-- A number of sectors in bytes, as an `unsigned long`. -/
def bytes (params : Params) (sectors : ℕ) : ℕ := toUInt64 (sectors * params.logicalBlockSize)

end Params

def BeyondEnd (params : Params) (offset nbytes : ℕ) : Prop :=
  params.size < (offset + nbytes) % 18446744073709551616

instance (params : Params) (offset nbytes : ℕ) : Decidable (BeyondEnd params offset nbytes) :=
  inferInstanceAs (Decidable (_ < _))

def sbdTransfer (params : Params) (rq : Request) (data : ℕ → UInt8) :
    Except Fault ((ℕ → UInt8) × List UInt8) :=
  let offset := params.bytes rq.blkRqPos
  let nbytes := params.bytes rq.blkRqCurSectors
  if BeyondEnd params offset nbytes then .ok (data, rq.buffer)
  else copyChunk params.size data offset nbytes rq

/-- One round of the loop of `sbd_request`. -/
def sbdRequest (params : Params) (s : Service) : Except Fault Service :=
  match s.rq with
  | none => .ok s
  | some rq =>
      if !rq.isFs then .ok (s.blkEndRequestAll rq (- Kernel.EIO))
      else s.serveCurrent (sbdTransfer params) 0 rq

/-- The chunk is rejected as beyond the end, or `memcpy` stays inside the device and the
buffer. -/
def CopyFits (params : Params) (chunk : Chunk) : Prop :=
  BeyondEnd params (params.bytes chunk.pos) (params.bytes chunk.sectors) ∨
    (Inside params.size (params.bytes chunk.pos) (params.bytes chunk.sectors) ∧
      params.bytes chunk.sectors ≤ chunk.buffer.length)

variable {params : Params} {data : ℕ → UInt8} {queue : List Request} {s t : Service} {rq : Request}

theorem Params.bytes_of_sectors {n : ℕ} (hparams : params.logicalBlockSize = 512)
    (hn : 512 * n < 18446744073709551616) : params.bytes n = 512 * n := by
  have hmul : (n : ℤ) * 512 = (512 * n : ℕ) := by
    push_cast
    ring
  rw [Params.bytes, hparams, hmul, toUInt64_natCast hn]

/-- With blocks of the size of a sector every copy fits, unless its end overflows. -/
theorem copyFits_of_sectors (hparams : params.logicalBlockSize = 512) {chunk : Chunk}
    (hend : 512 * chunk.pos + 512 * chunk.sectors < 18446744073709551616) :
    CopyFits params chunk := by
  have hbytes : ∀ n, 512 * n < 18446744073709551616 → params.bytes n = 512 * n :=
    fun _ => Params.bytes_of_sectors hparams
  rw [CopyFits, hbytes chunk.pos (by omega), hbytes chunk.sectors (by omega), chunk.buffer_length]
  by_cases hbeyond : BeyondEnd params (512 * chunk.pos) (512 * chunk.sectors)
  · exact .inl hbeyond
  · rw [BeyondEnd, Nat.mod_eq_of_lt hend] at hbeyond
    exact .inr ⟨.inr ⟨Int.natCast_nonneg _, by omega⟩, le_refl _⟩

theorem sbdTransfer_eq {write : Bool} {chunk : Chunk}
    (hcurrent : rq.current = some (write, chunk)) :
    (∃ out, sbdTransfer params rq data = .ok out) ↔ CopyFits params chunk := by
  obtain ⟨-, hpos, hsectors, hbuffer⟩ := Request.reads_current hcurrent
  simp only [sbdTransfer, CopyFits, hpos, hsectors]
  split
  · next hbeyond => simp [hbeyond]
  · next hwithin =>
      simp only [hwithin, false_or, copyChunk, bind_eq_ok, require_eq_ok, hbuffer]
      constructor
      · rintro ⟨out, u, hfits, -⟩
        exact hfits
      · intro hfits
        split
        · exact ⟨_, (), hfits, rfl⟩
        · exact ⟨_, (), hfits, rfl⟩

theorem sbdTransfer_empty (hcurrent : rq.current = none) :
    ∃ out, sbdTransfer params rq data = .ok out := by
  obtain ⟨hpos, hsectors, hbuffer⟩ := Request.reads_nothing hcurrent
  have hzero : params.bytes 0 = 0 := by simp [Params.bytes, toUInt64]
  simp only [sbdTransfer, hpos, hsectors, hzero]
  split
  · exact ⟨_, rfl⟩
  · exact ⟨_, copyChunk_eq data (Nat.zero_le _) (by rw [hbuffer, List.length_nil])⟩

/-- A request that is not for the disk stays in the variable of the driver. -/
theorem not_ends_of_not_fs (hrq : s.rq = some rq) (hfs : rq.isFs = false) :
    ¬ Service.Ends (sbdRequest params) s t := by
  apply WhileLoop.not_ends (I := fun s => ∃ rq, s.rq = some rq ∧ rq.isFs = false)
  · rintro s ⟨rq, hrq, -⟩
    simp [hrq]
  · rintro s s' ⟨rq, hrq, hfs⟩ hround
    simp only [sbdRequest, hrq, hfs, Bool.not_false, if_true, Except.ok.injEq] at hround
    exact ⟨{ rq with chunks := [] }, by rw [← hround]; rfl, hfs⟩
  · exact ⟨rq, hrq, hfs⟩

theorem round_of_fs (hrq : s.rq = some rq) (hfs : rq.isFs = true) :
    sbdRequest params s = s.serveCurrent (sbdTransfer params) 0 rq := by
  simp [sbdRequest, hrq, hfs]

/-- The loop gets through a queue only if all of it is for the disk. -/
theorem fs_of_ends (hs : s.Fetched) (h : Service.Ends (sbdRequest params) s t) :
    ∀ rq ∈ s.pending, rq.isFs = true := by
  induction hpending : s.pending generalizing s with
  | nil => simp
  | cons r rest ih =>
      obtain ⟨hrq, hnext⟩ := Service.rq_of_pending_cons hs hpending
      have hfs : r.isFs = true := by
        by_contra hnot
        exact not_ends_of_not_fs hrq (Bool.eq_false_iff.mpr hnot) h
      rw [Service.ends_of_some hrq, round_of_fs hrq hfs] at h
      obtain ⟨s', hround, hends⟩ := h
      simp only [Service.serveCurrent, bind_eq_ok] at hround
      obtain ⟨⟨after, buffer⟩, -, hcomplete⟩ := hround
      cases hcomplete
      intro rq hmem
      rcases List.mem_cons.mp hmem with rfl | hmem
      · exact hfs
      · exact ih (Service.fetched_completeCurrent _) hends (hnext _ rfl) rq hmem

/-- Every request of a queue is completed once exactly when all of them are for the disk
and no copy goes out of bounds. -/
theorem ends_each_iff (params : Params) (data : ℕ → UInt8) (queue : List Request) :
    (∃ t, Service.Ends (sbdRequest params) (.start data queue) t ∧
      t.ended = queue.map Request.addr) ↔
      ∀ rq ∈ queue, rq.isFs = true ∧ ∀ chunk ∈ rq.chunks, CopyFits params chunk := by
  rw [← forall_visits]
  constructor
  · rintro ⟨t, hends, -⟩ r hr
    have hfs := fs_of_ends (Service.fetched_start data queue) hends
    rw [Service.pending_start] at hfs
    obtain ⟨last, log, hserve, -⟩ :=
      (Service.ends_start_iff (fun s rq => round_of_fs) hfs).mp hends
    refine ⟨hfs r hr, fun write chunk hcurrent => ?_⟩
    obtain ⟨c, hc, rfl⟩ := serveAll_visit hserve hr
    exact (sbdTransfer_eq hcurrent).mp ⟨_, (serveAll_mem hserve hc).2⟩
  · intro h
    have hfs : ∀ r ∈ queue.flatMap visits, r.isFs = true := fun r hr => (h r hr).1
    obtain ⟨last, log, hserve⟩ : ∃ last log,
        serveAll (sbdTransfer params) 0 data (queue.flatMap visits) = .ok (last, log) := by
      apply exists_serveAll
      intro r hr data'
      cases hcurrent : r.current with
      | none => exact sbdTransfer_empty hcurrent
      | some current => exact (sbdTransfer_eq hcurrent).mpr ((h r hr).2 _ _ hcurrent)
    exact ⟨_, (Service.ends_start_iff (fun s rq => round_of_fs) hfs).mpr
      ⟨last, log, hserve, rfl⟩, rfl⟩

/-- With one request that is not for the disk the loop never reaches `NULL`. -/
theorem otherCommand_never_ends :
    ¬ ∃ t, Service.Ends (sbdRequest defaults)
        (.start (fun _ => 0) [⟨0, false, false, [oneSector 0 0]⟩]) t := by
  rintro ⟨t, hends⟩
  exact not_ends_of_not_fs rfl rfl hends

end LddSamples.Block.Sbd

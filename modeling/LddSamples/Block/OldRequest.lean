import LddSamples.Block.MyRequest

/-!
# lab2_block.c_2.6.31: the two request routines

Before 2.6.31 a driver works on the first request of the queue with `elv_next_request` and
`end_request`, which says of each chunk whether it failed. The other routine of the file is
that of lab2_block.
-/

namespace LddSamples.Block.OldRequest

open Kernel CArith Outcome MyRequest

/-- The queue with the request that is being worked on in front. -/
structure OldService where
  disk : ℕ → UInt8
  queue : List Request
  completed : List Completion
  ended : List ℕ

namespace OldService

def start (disk : ℕ → UInt8) (queue : List Request) : OldService := ⟨disk, queue, [], []⟩

def elvNextRequest (s : OldService) : Option Request := s.queue.head?

/-- `end_request` completes the current chunk, and takes the request off the queue with its
last one. -/
def endRequest (s : OldService) (done : Completion) : OldService :=
  let s := { s with disk := done.after, completed := s.completed ++ [done] }
  if done.rq.chunks.tail = [] then
    { s with queue := s.queue.tail, ended := s.ended ++ [done.rq.addr] }
  else { s with queue := done.rq.advance :: s.queue.tail }

/-- `while ((rq = elv_next_request(q))) body`. -/
def Ends (body : OldService → Except Fault OldService) (s t : OldService) : Prop :=
  WhileLoop.Ends (fun s => s.elvNextRequest.isSome) body s t

end OldService

/-- One round of the loop. -/
def oldRequest (diskmb : ℤ) (s : OldService) : Except Fault OldService :=
  match s.elvNextRequest with
  | none => .ok s
  | some rq =>
      if !rq.isFs then .ok (s.endRequest ⟨rq, s.disk, s.disk, rq.buffer, -Kernel.EIO⟩)
      else
        let nrSectors := toUInt32 rq.blkRqCurSectors
        let sector := toUInt32 rq.blkRqPos
        let offset := toUInt32 (sector * sectorSize : ℕ)
        let size := toInt32 (nrSectors * sectorSize : ℕ)
        if offset + size > diskSize diskmb then
          .ok (s.endRequest ⟨rq, s.disk, s.disk, rq.buffer, -Kernel.EIO⟩)
        else do
          let (disk, buffer) ←
            copyChunk (diskSize diskmb).toNat s.disk offset (toUInt64 size) rq
          .ok (s.endRequest ⟨rq, s.disk, disk, buffer, 0⟩)

/-- The two tests of the routines. -/
def Skipped (diskmb : ℤ) (rq : Request) : Prop :=
  rq.isFs = false ∨
    (toUInt32 (toUInt32 rq.blkRqPos * sectorSize : ℕ) : ℤ) +
      toInt32 (toUInt32 rq.blkRqCurSectors * sectorSize : ℕ) > diskSize diskmb

instance (diskmb : ℤ) (rq : Request) : Decidable (Skipped diskmb rq) :=
  inferInstanceAs (Decidable (_ ∨ _))

/-- The result that the chunk has in the old routine. -/
def status (diskmb : ℤ) (rq : Request) : ℤ := if Skipped diskmb rq then -Kernel.EIO else 0

/-- The same service with what is known of it in the new routine. -/
def renewed (s : OldService) : Service :=
  ⟨s.disk, s.queue.tail, s.queue.head?, s.completed.map fun c => { c with status := 0 }, s.ended⟩

variable {diskmb : ℤ} {s t : OldService} {rq : Request} {ramdisk : ℕ → UInt8}
  {queue : List Request}

theorem transfer_of_skipped (h : Skipped diskmb rq) (disk : ℕ → UInt8) :
    transfer diskmb rq disk = .ok (disk, rq.buffer) := by
  unfold transfer
  rcases h with hfs | hbeyond
  · rw [if_pos (by simp [hfs])]
  · split
    · rfl
    · exact if_pos hbeyond

/-- A round moves what the new routine moves, and completes with the result of the chunk. -/
theorem oldRequest_eq (h : s.elvNextRequest = some rq) :
    oldRequest diskmb s = (transfer diskmb rq s.disk).map fun moved =>
      s.endRequest ⟨rq, s.disk, moved.1, moved.2, status diskmb rq⟩ := by
  by_cases hskipped : Skipped diskmb rq
  · rw [transfer_of_skipped hskipped, status, if_pos hskipped]
    simp only [oldRequest, h, Except.map]
    rcases hskipped with hfs | hbeyond
    · rw [if_pos (by simp [hfs])]
    · simp only [if_pos hbeyond, ite_self]
  · have hfs : rq.isFs = true := by
      by_contra hnot
      exact hskipped (.inl (Bool.eq_false_iff.mpr hnot))
    have hinside := fun hbeyond => hskipped (.inr hbeyond)
    rw [status, if_neg hskipped]
    simp only [oldRequest, h, transfer, hfs, Bool.not_true, Bool.false_eq_true, if_false,
      if_neg hinside]
    cases copyChunk (diskSize diskmb).toNat s.disk _ _ rq <;> rfl

theorem renewed_endRequest (s : OldService) (done : Completion) :
    renewed (s.endRequest done) = (renewed s).completeCurrent { done with status := 0 } := by
  unfold OldService.endRequest Service.completeCurrent Service.blkEndRequestCur
  split
  · simp [renewed, Service.blkFetchRequest]
  · simp [renewed]

/-- Round by round the routines do the same. -/
theorem myRequest_renewed (h : s.elvNextRequest.isSome = true) :
    myRequest diskmb (renewed s) = (oldRequest diskmb s).map renewed := by
  obtain ⟨rq, hrq⟩ := Option.isSome_iff_exists.mp h
  have hcurrent : (renewed s).rq = some rq := hrq
  simp only [myRequest, hcurrent, Service.serveCurrent, oldRequest_eq hrq]
  have hdisk : (renewed s).disk = s.disk := rfl
  rw [hdisk]
  cases transfer diskmb rq s.disk with
  | error f => rfl
  | ok moved =>
      simp only [ok_bind, Except.map, renewed_endRequest]

/-- Every chunk has the result that belongs to it. -/
def Labelled (diskmb : ℤ) (s : OldService) : Prop :=
  ∀ c ∈ s.completed, c.status = status diskmb c.rq

theorem round_labelled (hs : Labelled diskmb s) (h : oldRequest diskmb s = .ok t) :
    Labelled diskmb t := by
  cases hrq : s.elvNextRequest with
  | none =>
      simp only [oldRequest, hrq] at h
      cases h
      exact hs
  | some rq =>
      rw [oldRequest_eq hrq] at h
      cases hmoved : transfer diskmb rq s.disk with
      | error f => simp [hmoved, Except.map] at h
      | ok moved =>
          simp only [hmoved, Except.map, Except.ok.injEq] at h
          subst h
          intro c hc
          have hmem : c ∈ s.completed ++ [⟨rq, s.disk, moved.1, moved.2, status diskmb rq⟩] := by
            unfold OldService.endRequest at hc
            split at hc <;> exact hc
          rcases List.mem_append.mp hmem with hold | hnew
          · exact hs c hold
          · rw [List.mem_singleton.mp hnew]

/-- The service as the old routine leaves it, from what the new one does. -/
def relabelled (diskmb : ℤ) (u : Service) : OldService :=
  ⟨u.disk, [], u.completed.map fun c => { c with status := status diskmb c.rq }, u.ended⟩

theorem relabelled_renewed (hqueue : s.queue = []) (hs : Labelled diskmb s) :
    relabelled diskmb (renewed s) = s := by
  obtain ⟨disk, queue, completed, ended⟩ := s
  obtain rfl : queue = [] := hqueue
  simp only [relabelled, renewed, List.map_map, OldService.mk.injEq, true_and, and_true]
  have hsame : ∀ c ∈ completed, { c with status := status diskmb c.rq } = c := by
    intro c hc
    rw [← hs c hc]
  exact (List.map_congr_left hsame).trans (List.map_id completed)

/-- The new routine completes every chunk with its `res`. -/
theorem status_of_ends {u : Service}
    (h : Service.Ends (myRequest diskmb) (.start ramdisk queue) u) :
    ∀ c ∈ u.completed, c.status = 0 := by
  obtain ⟨last, log, hserve, rfl⟩ := MyRequest.ends_iff.mp h
  intro c hc
  exact (serveAll_mem hserve hc).1

/-- The old routine comes to an end exactly where the new one does, with the same disk, the
same buffers and the same order; but where the new one completes every chunk with 0, the old
one completes with `-EIO` what it skips. -/
theorem old_ends_iff (diskmb : ℤ) (ramdisk : ℕ → UInt8) (queue : List Request) (t : OldService) :
    OldService.Ends (oldRequest diskmb) (.start ramdisk queue) t ↔
      ∃ u, Service.Ends (myRequest diskmb) (.start ramdisk queue) u ∧
        (∀ c ∈ u.completed, c.status = 0) ∧ t = relabelled diskmb u := by
  have hmap : ∀ u, Service.Ends (myRequest diskmb) (renewed (.start ramdisk queue)) u ↔
      ∃ t, OldService.Ends (oldRequest diskmb) (.start ramdisk queue) t ∧ renewed t = u :=
    fun u => WhileLoop.ends_map (fun _ => rfl) fun _ => myRequest_renewed
  have hstart : renewed (.start ramdisk queue) = .start ramdisk queue := rfl
  rw [hstart] at hmap
  have hback : ∀ t, OldService.Ends (oldRequest diskmb) (.start ramdisk queue) t →
      relabelled diskmb (renewed t) = t := by
    intro t hends
    have hlabelled : Labelled diskmb t :=
      WhileLoop.Ends.keeps (fun _ _ => round_labelled) (fun _ hc => absurd hc List.not_mem_nil)
        hends
    obtain ⟨-, -, hexit⟩ := hends
    refine relabelled_renewed ?_ hlabelled
    simpa [OldService.elvNextRequest] using hexit
  constructor
  · intro hends
    have hnew := (hmap _).mpr ⟨t, hends, rfl⟩
    exact ⟨renewed t, hnew, status_of_ends hnew, (hback t hends).symm⟩
  · rintro ⟨u, hends, -, rfl⟩
    obtain ⟨t, hold, rfl⟩ := (hmap u).mp hends
    rwa [hback t hold]

end LddSamples.Block.OldRequest

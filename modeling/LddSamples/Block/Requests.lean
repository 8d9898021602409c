import LddSamples.Kernel.Basic
import LddSamples.Library.ByteMap
import LddSamples.Library.WhileLoop

/-!
# Requests of the block layer

A request is a list of chunks, and a driver works on the first of them. What the
drivers assume of `blk_fetch_request`, `__blk_end_request_cur` and
`__blk_end_request_all` is written down here, with a log of what was completed.
-/

namespace LddSamples.Block

open Kernel Outcome ByteMap

/-- A run of sectors and the memory for it; the block layer makes no empty ones. -/
structure Chunk where
  pos : ℕ
  sectors : ℕ
  buffer : List UInt8
  sectors_pos : 0 < sectors
  buffer_length : buffer.length = 512 * sectors

/-- The chunk ends by the end of a disk of `size` bytes. -/
def Chunk.InsideDisk (chunk : Chunk) (size : ℤ) : Prop :=
  ((512 * chunk.pos + 512 * chunk.sectors : ℕ) : ℤ) ≤ size

instance (chunk : Chunk) (size : ℤ) : Decidable (chunk.InsideDisk size) :=
  inferInstanceAs (Decidable (_ ≤ _))

/-- Sectors all bytes of which are the same. -/
def uniformChunk (pos : ℕ) {sectors : ℕ} (h : 0 < sectors) (byte : UInt8) : Chunk :=
  ⟨pos, sectors, List.replicate (512 * sectors) byte, h, List.length_replicate⟩

/-- One sector, all bytes of which are the same. -/
def oneSector (pos : ℕ) (byte : UInt8) : Chunk :=
  ⟨pos, 1, List.replicate 512 byte, Nat.one_pos, List.length_replicate⟩

/-- `addr` is the address of the `struct request`, `isFs` its
`cmd_type == REQ_TYPE_FS`, and `write` its `rq_data_dir`. -/
structure Request where
  addr : ℕ
  isFs : Bool
  write : Bool
  chunks : List Chunk

namespace Request

def blkRqPos (rq : Request) : ℕ := (rq.chunks.head?.map Chunk.pos).getD 0

def blkRqCurSectors (rq : Request) : ℕ := (rq.chunks.head?.map Chunk.sectors).getD 0

def buffer (rq : Request) : List UInt8 := (rq.chunks.head?.map Chunk.buffer).getD []

/-- The request once its current chunk is completed. -/
def advance (rq : Request) : Request := { rq with chunks := rq.chunks.tail }

end Request

def suffixes : List Chunk → List (List Chunk)
  | [] => []
  | c :: cs => (c :: cs) :: suffixes cs

/-- The request at each of its chunks, as a driver comes to it. -/
def visits (rq : Request) : List Request :=
  rq :: (suffixes rq.chunks.tail).map fun chunks => { rq with chunks := chunks }

/-- The chunk at which a request stood when it was completed, the disk before and after,
what the buffer of the chunk then held, and the status. -/
structure Completion where
  rq : Request
  before : ℕ → UInt8
  after : ℕ → UInt8
  buffer : List UInt8
  status : ℤ

/-- `rq` is the variable of the driver; `ended` are the addresses of the requests that
have been completed as a whole, in order. -/
structure Service where
  disk : ℕ → UInt8
  queue : List Request
  rq : Option Request
  completed : List Completion
  ended : List ℕ

namespace Service

def blkFetchRequest (s : Service) : Service :=
  { s with rq := s.queue.head?, queue := s.queue.tail }

/-- A driver has fetched its first request. -/
def start (disk : ℕ → UInt8) (queue : List Request) : Service :=
  blkFetchRequest ⟨disk, queue, none, [], []⟩

def blkEndRequestCur (s : Service) (done : Completion) : Bool × Service :=
  let s := { s with disk := done.after, completed := s.completed ++ [done] }
  if done.rq.chunks.tail = [] then (false, { s with ended := s.ended ++ [done.rq.addr] })
  else (true, { s with rq := some done.rq.advance })

/-- `if (!__blk_end_request_cur(rq, status)) rq = blk_fetch_request(q)`. -/
def completeCurrent (s : Service) (done : Completion) : Service :=
  let (more, s) := s.blkEndRequestCur done
  if more then s else s.blkFetchRequest

def serveCurrent (transfer : Request → (ℕ → UInt8) → Except Fault ((ℕ → UInt8) × List UInt8))
    (status : ℤ) (s : Service) (rq : Request) : Except Fault Service := do
  let (disk, buffer) ← transfer rq s.disk
  .ok (s.completeCurrent ⟨rq, s.disk, disk, buffer, status⟩)

/-- `__blk_end_request_all` completes what is left of the request; the driver's variable
still points to it. -/
def blkEndRequestAll (s : Service) (rq : Request) (status : ℤ) : Service :=
  { s with
    rq := some { rq with chunks := [] }
    completed := s.completed ++
      (visits rq).map fun r => ⟨r, s.disk, s.disk, r.buffer, status⟩
    ended := s.ended ++ [rq.addr] }

/-- `while (rq) body`. -/
def Ends (body : Service → Except Fault Service) (s t : Service) : Prop :=
  WhileLoop.Ends (fun s => s.rq.isSome) body s t

end Service

/-- The two calls of `memcpy` between `n` bytes of the disk and the buffer. -/
def copyChunk (size : ℕ) (disk : ℕ → UInt8) (offset n : ℕ) (rq : Request) :
    Except Fault ((ℕ → UInt8) × List UInt8) := do
  require .copyOutOfBounds (Inside size offset n ∧ n ≤ rq.buffer.length)
  if rq.write then .ok (overwrite disk offset (rq.buffer.take n), rq.buffer)
  else .ok (disk, window disk offset n ++ rq.buffer.drop n)

/-- A copy of the whole buffer to or from a place inside the disk. -/
theorem copyChunk_eq {size offset n : ℕ} {rq : Request} (disk : ℕ → UInt8)
    (hinside : offset + n ≤ size) (hbuffer : rq.buffer.length = n) :
    copyChunk size disk offset n rq = .ok
      (if rq.write then (overwrite disk offset rq.buffer, rq.buffer)
        else (disk, window disk offset n)) := by
  subst hbuffer
  have hfits : Inside size offset rq.buffer.length ∧ rq.buffer.length ≤ rq.buffer.length :=
    ⟨.inr ⟨Int.natCast_nonneg _, by omega⟩, le_refl _⟩
  rw [copyChunk, require_of hfits, ok_bind, List.take_length, List.drop_length, List.append_nil]
  split <;> rfl

theorem copyChunk_overrun {size offset n : ℕ} {rq : Request} {disk : ℕ → UInt8}
    (hbuffer : rq.buffer.length < n) :
    copyChunk size disk offset n rq = .error .copyOutOfBounds := by
  have hoverrun : ¬ (Inside size offset n ∧ n ≤ rq.buffer.length) :=
    fun hfits => absurd hfits.2 (Nat.not_le.mpr hbuffer)
  rw [copyChunk, require_eq_error.mpr ⟨hoverrun, rfl⟩, error_bind]

/-- The disk and the buffer once the bytes of the chunk have been moved to or from its own
sectors. -/
def Chunk.moved (chunk : Chunk) (write : Bool) (disk : ℕ → UInt8) : (ℕ → UInt8) × List UInt8 :=
  if write then (overwrite disk (512 * chunk.pos) chunk.buffer, chunk.buffer)
  else (disk, window disk (512 * chunk.pos) (512 * chunk.sectors))

/-- A write of at least one byte is seen where that byte differs from the content. -/
theorem copyChunk_changes {size offset n : ℕ} {rq : Request} {disk : ℕ → UInt8} {byte : UInt8}
    (hn : 0 < n) (hwrite : rq.write = true) (hhead : rq.buffer[0]? = some byte)
    (hdisk : disk offset ≠ byte) : copyChunk size disk offset n rq ≠ .ok (disk, rq.buffer) := by
  intro hcopy
  simp only [copyChunk, bind_eq_ok, hwrite, if_true] at hcopy
  obtain ⟨-, -, hstored⟩ := hcopy
  refine overwrite_ne ?_ hdisk (congrArg Prod.fst (Except.ok.inj hstored))
  rw [List.getElem?_take_of_lt hn, hhead]

theorem Chunk.moved_ne {chunk : Chunk} {disk : ℕ → UInt8} {byte : UInt8}
    (hhead : chunk.buffer[0]? = some byte) (hdisk : disk (512 * chunk.pos) ≠ byte) :
    chunk.moved true disk ≠ (disk, chunk.buffer) :=
  fun hsame => overwrite_ne hhead hdisk (congrArg Prod.fst hsame)

/-! ## Both levels of the loop as one -/

theorem visits_last {rq : Request} (h : rq.chunks.tail = []) : visits rq = [rq] := by
  rw [visits, h]
  rfl

theorem visits_more {rq : Request} (h : rq.chunks.tail ≠ []) :
    visits rq = rq :: visits rq.advance := by
  obtain ⟨c, cs, hcs⟩ := List.exists_cons_of_ne_nil h
  simp [visits, Request.advance, hcs, suffixes]

theorem isFs_of_mem_visits {rq r : Request} (h : r ∈ visits rq) : r.isFs = rq.isFs := by
  rcases List.mem_cons.mp h with rfl | h
  · rfl
  · obtain ⟨chunks, -, rfl⟩ := List.mem_map.mp h
    rfl

/-- The chunk at which the request stands, and the direction. -/
def Request.current (rq : Request) : Option (Bool × Chunk) :=
  rq.chunks.head?.map fun chunk => (rq.write, chunk)

/-- What a driver reads off the request is the current chunk. -/
theorem Request.reads_current {rq : Request} {write : Bool} {chunk : Chunk}
    (h : rq.current = some (write, chunk)) :
    rq.write = write ∧ rq.blkRqPos = chunk.pos ∧ rq.blkRqCurSectors = chunk.sectors ∧
      rq.buffer = chunk.buffer := by
  obtain ⟨c, hhead, heq⟩ := Option.map_eq_some_iff.mp h
  obtain ⟨hwrite, rfl⟩ := Prod.mk.inj heq
  exact ⟨hwrite, by simp [blkRqPos, hhead], by simp [blkRqCurSectors, hhead],
    by simp [buffer, hhead]⟩

theorem Request.reads_nothing {rq : Request} (h : rq.current = none) :
    rq.blkRqPos = 0 ∧ rq.blkRqCurSectors = 0 ∧ rq.buffer = [] := by
  have hhead : rq.chunks.head? = none := Option.map_eq_none_iff.mp h
  exact ⟨by simp [blkRqPos, hhead], by simp [blkRqCurSectors, hhead], by simp [buffer, hhead]⟩

/-- Visit by visit a driver comes to every chunk, in order. -/
theorem visits_current (rq : Request) :
    (visits rq).filterMap Request.current = rq.chunks.map fun chunk => (rq.write, chunk) := by
  have hsuffixes : ∀ cs, (suffixes cs).filterMap
      (fun chunks => Request.current { rq with chunks := chunks }) =
        cs.map fun chunk => (rq.write, chunk) := by
    intro cs
    induction cs with
    | nil => rfl
    | cons c cs ih =>
        rw [suffixes, List.filterMap_cons, ih]
        rfl
  rw [visits, List.filterMap_cons, List.filterMap_map, Function.comp_def, hsuffixes]
  cases hchunks : rq.chunks with
  | nil => simp [Request.current, hchunks]
  | cons c cs => simp [Request.current, hchunks]

/-- What holds of every request and chunk holds of every visit, and conversely. -/
theorem forall_visits {queue : List Request} {Q : Chunk → Prop} :
    (∀ r ∈ queue.flatMap visits,
      r.isFs = true ∧ ∀ write chunk, r.current = some (write, chunk) → Q chunk) ↔
      ∀ rq ∈ queue, rq.isFs = true ∧ ∀ chunk ∈ rq.chunks, Q chunk := by
  constructor
  · intro h rq hrq
    have hvisit : ∀ r ∈ visits rq, r ∈ queue.flatMap visits :=
      fun r hr => List.mem_flatMap.mpr ⟨rq, hrq, hr⟩
    refine ⟨(h rq (hvisit rq List.mem_cons_self)).1, fun chunk hchunk => ?_⟩
    obtain ⟨r, hr, hcurrent⟩ : ∃ r ∈ visits rq, r.current = some (rq.write, chunk) := by
      rw [← List.mem_filterMap, visits_current]
      exact List.mem_map_of_mem hchunk
    exact (h r (hvisit r hr)).2 _ _ hcurrent
  · intro h r hr
    obtain ⟨rq, hrq, hvisit⟩ := List.mem_flatMap.mp hr
    obtain ⟨hfs, hchunks⟩ := h rq hrq
    refine ⟨(isFs_of_mem_visits hvisit).trans hfs, fun write chunk hcurrent => ?_⟩
    have hmem : (write, chunk) ∈ (visits rq).filterMap Request.current :=
      List.mem_filterMap.mpr ⟨r, hvisit, hcurrent⟩
    rw [visits_current] at hmem
    obtain ⟨c, hc, heq⟩ := List.mem_map.mp hmem
    obtain ⟨-, rfl⟩ := Prod.mk.inj heq
    exact hchunks c hc

/-- What a driver has in front of it, visit by visit. -/
def Service.pending (s : Service) : List Request := (s.rq.toList ++ s.queue).flatMap visits

/-- Serve one visit after the other. -/
def serveAll (transfer : Request → (ℕ → UInt8) → Except Fault ((ℕ → UInt8) × List UInt8))
    (status : ℤ) (disk : ℕ → UInt8) : List Request → Except Fault ((ℕ → UInt8) × List Completion)
  | [] => .ok (disk, [])
  | rq :: rest => do
      let (after, buffer) ← transfer rq disk
      let (last, log) ← serveAll transfer status after rest
      .ok (last, ⟨rq, disk, after, buffer, status⟩ :: log)

/-- The addresses of the requests whose last chunk is among the visits. -/
def finished (rqs : List Request) : List ℕ :=
  (rqs.filter fun rq => rq.chunks.tail = []).map Request.addr

theorem finished_append (xs ys : List Request) :
    finished (xs ++ ys) = finished xs ++ finished ys := by
  simp [finished]

theorem finished_visits (rq : Request) : finished (visits rq) = [rq.addr] := by
  induction hchunks : rq.chunks.tail generalizing rq with
  | nil => simp [visits_last hchunks, finished, hchunks]
  | cons c cs ih =>
      have hmore : rq.chunks.tail ≠ [] := by simp [hchunks]
      have hnext := ih rq.advance (by simp [Request.advance, hchunks])
      rw [visits_more hmore]
      simpa [finished, hmore, Request.advance] using hnext

theorem finished_flatMap_visits (queue : List Request) :
    finished (queue.flatMap visits) = queue.map Request.addr := by
  induction queue with
  | nil => rfl
  | cons rq queue ih => rw [List.flatMap_cons, finished_append, finished_visits, ih]; rfl

namespace Service

variable {transfer : Request → (ℕ → UInt8) → Except Fault ((ℕ → UInt8) × List UInt8)}
  {status : ℤ} {s t : Service} {rq : Request}

/-- No request is left in the queue while the driver holds none. -/
def Fetched (s : Service) : Prop := s.rq = none → s.queue = []

theorem fetched_blkFetchRequest (s : Service) : Fetched s.blkFetchRequest := by
  intro hnone
  have hempty : s.queue = [] := List.head?_eq_none_iff.mp hnone
  simp [blkFetchRequest, hempty]

theorem pending_blkFetchRequest (s : Service) :
    s.blkFetchRequest.pending = s.queue.flatMap visits := by
  cases h : s.queue with
  | nil => simp [pending, blkFetchRequest, h]
  | cons rq queue => simp [pending, blkFetchRequest, h]

theorem fetched_start (disk : ℕ → UInt8) (queue : List Request) : Fetched (start disk queue) :=
  fetched_blkFetchRequest _

theorem pending_start (disk : ℕ → UInt8) (queue : List Request) :
    (start disk queue).pending = queue.flatMap visits := pending_blkFetchRequest _

@[simp] theorem completeCurrent_disk (done : Completion) :
    (s.completeCurrent done).disk = done.after := by
  unfold completeCurrent blkEndRequestCur
  split_ifs <;> rfl

@[simp] theorem completeCurrent_completed (done : Completion) :
    (s.completeCurrent done).completed = s.completed ++ [done] := by
  unfold completeCurrent blkEndRequestCur
  split_ifs <;> rfl

@[simp] theorem completeCurrent_ended (done : Completion) :
    (s.completeCurrent done).ended = s.ended ++ finished [done.rq] := by
  unfold completeCurrent blkEndRequestCur
  split_ifs with hlast
  · simp [blkFetchRequest, finished, hlast]
  · simp [finished, hlast]

theorem fetched_completeCurrent (done : Completion) : Fetched (s.completeCurrent done) := by
  unfold completeCurrent blkEndRequestCur
  split_ifs
  · exact fetched_blkFetchRequest _
  · intro hnone
    cases hnone

/-- One round of the loop takes the first visit off. -/
theorem pending_completeCurrent (done : Completion) (h : s.rq = some done.rq) :
    s.pending = done.rq :: (s.completeCurrent done).pending := by
  have hpending : s.pending = visits done.rq ++ s.queue.flatMap visits := by
    simp [pending, h]
  unfold completeCurrent blkEndRequestCur
  split_ifs with hlast
  · simp [pending_blkFetchRequest, hpending, visits_last hlast]
  · rw [hpending, visits_more hlast]
    simp [pending]

theorem ends_of_none {body : Service → Except Fault Service} (h : s.rq = none) :
    Ends body s t ↔ t = s :=
  WhileLoop.ends_of_exit (by simp [h])

theorem ends_of_some {body : Service → Except Fault Service} (h : s.rq = some rq) :
    Ends body s t ↔ ∃ s', body s = .ok s' ∧ Ends body s' t :=
  WhileLoop.ends_of_round (by simp [h])

theorem rq_of_pending_nil (h : s.pending = []) : s.rq = none := by
  cases hrq : s.rq with
  | none => rfl
  | some rq => simp [pending, hrq, visits] at h

theorem rq_of_pending_cons {rest : List Request} (hs : Fetched s) (h : s.pending = rq :: rest) :
    s.rq = some rq ∧
      ∀ done : Completion, done.rq = rq → (s.completeCurrent done).pending = rest := by
  cases hrq : s.rq with
  | none => simp [pending, hrq, hs hrq] at h
  | some r =>
      have hsplit : ∀ done : Completion, done.rq = r →
          rq = r ∧ rest = (s.completeCurrent done).pending := by
        rintro done rfl
        have htaken := pending_completeCurrent done hrq
        rw [h] at htaken
        exact List.cons.inj htaken
      obtain rfl : rq = r := (hsplit ⟨r, s.disk, s.disk, [], 0⟩ rfl).1
      exact ⟨rfl, fun done hdone => (hsplit done hdone).2.symm⟩

/-- A driver whose rounds serve the current chunk ends exactly when it can serve every
visit, and then every request was completed once. -/
theorem ends_iff_serveAll {body : Service → Except Fault Service} {P : Request → Prop}
    (hbody : ∀ s rq, s.rq = some rq → P rq → body s = serveCurrent transfer status s rq)
    (hs : Fetched s) (hP : ∀ rq ∈ s.pending, P rq) :
    Ends body s t ↔ ∃ disk log, serveAll transfer status s.disk s.pending = .ok (disk, log) ∧
      t = ⟨disk, [], none, s.completed ++ log, s.ended ++ finished s.pending⟩ := by
  induction hpending : s.pending generalizing s with
  | nil =>
      have hrq := rq_of_pending_nil hpending
      have hstart : s = ⟨s.disk, [], none, s.completed, s.ended⟩ := by
        rw [← hrq, ← hs hrq]
      rw [ends_of_none hrq]
      simp [serveAll, finished, ← hstart]
  | cons r rest ih =>
      obtain ⟨hrq, hnext⟩ := rq_of_pending_cons hs hpending
      rw [hpending] at hP
      rw [ends_of_some hrq, hbody s r hrq (hP r List.mem_cons_self)]
      cases htransfer : transfer r s.disk with
      | error f => simp [serveCurrent, serveAll, htransfer]
      | ok out =>
          obtain ⟨after, buffer⟩ := out
          have hround : serveCurrent transfer status s r =
              .ok (s.completeCurrent ⟨r, s.disk, after, buffer, status⟩) := by
            rw [serveCurrent, htransfer, ok_bind]
          have hrest := hnext ⟨r, s.disk, after, buffer, status⟩ rfl
          have hends := ih (fetched_completeCurrent ⟨r, s.disk, after, buffer, status⟩)
            (fun rq hrq => hP rq (List.mem_cons_of_mem _ (hrest ▸ hrq))) hrest
          have hfinished : finished (r :: rest) = finished [r] ++ finished rest :=
            finished_append [r] rest
          simp only [completeCurrent_disk, completeCurrent_completed, completeCurrent_ended,
            List.append_assoc, List.singleton_append, ← hfinished] at hends
          simp only [hround, Except.ok.injEq, exists_eq_left', hends, serveAll, htransfer,
            ok_bind, bind_eq_ok]
          constructor
          · rintro ⟨last, log, hserve, ht⟩
            exact ⟨last, _, ⟨(last, log), hserve, rfl⟩, ht⟩
          · rintro ⟨_, _, ⟨⟨last, log⟩, hserve, hlog⟩, ht⟩
            cases hlog
            exact ⟨last, log, hserve, ht⟩

/-- The same for a call of the driver. -/
theorem ends_start_iff {body : Service → Except Fault Service} {P : Request → Prop}
    {disk : ℕ → UInt8} {queue : List Request}
    (hbody : ∀ s rq, s.rq = some rq → P rq → body s = serveCurrent transfer status s rq)
    (hP : ∀ rq ∈ queue.flatMap visits, P rq) :
    Ends body (start disk queue) t ↔
      ∃ last log, serveAll transfer status disk (queue.flatMap visits) = .ok (last, log) ∧
        t = ⟨last, [], none, log, queue.map Request.addr⟩ := by
  rw [ends_iff_serveAll hbody (fetched_start disk queue) (by rwa [pending_start]), pending_start,
    finished_flatMap_visits]
  rfl

end Service

/-! ## What a service leaves -/

section

variable {transfer : Request → (ℕ → UInt8) → Except Fault ((ℕ → UInt8) × List UInt8)}
  {status : ℤ} {disk last : ℕ → UInt8} {rqs : List Request} {log : List Completion}

theorem serveAll_rqs (h : serveAll transfer status disk rqs = .ok (last, log)) :
    log.map Completion.rq = rqs := by
  induction rqs generalizing disk log with
  | nil =>
      cases h
      rfl
  | cons rq rqs ih =>
      simp only [serveAll, bind_eq_ok] at h
      obtain ⟨⟨after, buffer⟩, -, ⟨last', log'⟩, hrest, heq⟩ := h
      cases heq
      rw [List.map_cons, ih hrest]

/-- Each visit is a transfer of its own, completed with the one status. -/
theorem serveAll_mem (h : serveAll transfer status disk rqs = .ok (last, log)) {c : Completion}
    (hc : c ∈ log) : c.status = status ∧ transfer c.rq c.before = .ok (c.after, c.buffer) := by
  induction rqs generalizing disk log with
  | nil =>
      cases h
      cases hc
  | cons rq rqs ih =>
      simp only [serveAll, bind_eq_ok] at h
      obtain ⟨⟨after, buffer⟩, htransfer, ⟨last', log'⟩, hrest, heq⟩ := h
      cases heq
      rcases List.mem_cons.mp hc with rfl | hc
      · exact ⟨rfl, htransfer⟩
      · exact ih hrest hc

theorem serveAll_visit (h : serveAll transfer status disk rqs = .ok (last, log)) {rq : Request}
    (hrq : rq ∈ rqs) : ∃ c ∈ log, c.rq = rq := by
  rw [← serveAll_rqs h] at hrq
  exact List.mem_map.mp hrq

theorem exists_serveAll (status : ℤ) (disk : ℕ → UInt8)
    (h : ∀ rq ∈ rqs, ∀ disk, ∃ out, transfer rq disk = .ok out) :
    ∃ last log, serveAll transfer status disk rqs = .ok (last, log) := by
  induction rqs generalizing disk with
  | nil => exact ⟨disk, [], rfl⟩
  | cons rq rqs ih =>
      obtain ⟨⟨after, buffer⟩, htransfer⟩ := h rq List.mem_cons_self disk
      obtain ⟨last, log, hrest⟩ := ih after fun r hr => h r (List.mem_cons_of_mem _ hr)
      refine ⟨last, ⟨rq, disk, after, buffer, status⟩ :: log, ?_⟩
      simp only [serveAll, htransfer, hrest, ok_bind]

end

/-- What a completed chunk was meant to store. -/
def Completion.stores (c : Completion) : List (ℕ × List UInt8) :=
  match c.rq.current with
  | some (true, chunk) => [(512 * chunk.pos, chunk.buffer)]
  | _ => []

/-- What a log of completions was meant to store, newest first. -/
def stored : List Completion → List (ℕ × List UInt8)
  | [] => []
  | c :: log => stored log ++ c.stores

/-- All bytes of the chunk were moved between its buffer and its own sectors, and
nothing else was changed. -/
def Completion.Transferred (c : Completion) : Prop :=
  match c.rq.current with
  | some (true, chunk) =>
      c.after = overwrite c.before (512 * chunk.pos) chunk.buffer ∧ c.buffer = chunk.buffer
  | some (false, chunk) =>
      c.after = c.before ∧ c.buffer = window c.before (512 * chunk.pos) (512 * chunk.sectors)
  | none => c.after = c.before

theorem Completion.transferred_of_moved {rq : Request} {write : Bool} {chunk : Chunk}
    {before after : ℕ → UInt8} {buffer : List UInt8} (status : ℤ)
    (hcurrent : rq.current = some (write, chunk))
    (hmoved : chunk.moved write before = (after, buffer)) :
    (⟨rq, before, after, buffer, status⟩ : Completion).Transferred := by
  cases write with
  | true =>
      cases hmoved
      simp [Completion.Transferred, hcurrent]
  | false =>
      cases hmoved
      simp [Completion.Transferred, hcurrent]

theorem Completion.Transferred.after_eq {c : Completion} (h : c.Transferred) :
    c.after = lastStored c.before c.stores := by
  unfold Completion.Transferred at h
  unfold Completion.stores
  split at h
  · next hcurrent => simp only [hcurrent, lastStored_cons, h.1, lastStored]
  · next hcurrent => simp only [hcurrent, h.1, lastStored]
  · next hcurrent => simp only [hcurrent, h, lastStored]

section

variable {transfer : Request → (ℕ → UInt8) → Except Fault ((ℕ → UInt8) × List UInt8)}
  {status : ℤ} {disk last : ℕ → UInt8} {rqs : List Request} {log pre post : List Completion}

/-- After some transfers the rest is served on what they have stored. -/
theorem serveAll_split (h : serveAll transfer status disk rqs = .ok (last, pre ++ post))
    (hmoved : ∀ c ∈ pre, c.Transferred) :
    serveAll transfer status (lastStored disk (stored pre)) (post.map Completion.rq) =
      .ok (last, post) := by
  induction pre generalizing disk rqs with
  | nil =>
      have hrqs := serveAll_rqs h
      rw [List.nil_append] at hrqs h
      rw [hrqs]
      exact h
  | cons c pre ih =>
      cases rqs with
      | nil => simp [serveAll] at h
      | cons rq rqs =>
          simp only [serveAll, bind_eq_ok] at h
          obtain ⟨⟨after, buffer⟩, -, ⟨last', log'⟩, hrest, heq⟩ := h
          obtain ⟨rfl, hlog⟩ := Prod.mk.inj (Except.ok.inj heq)
          obtain ⟨rfl, rfl⟩ := List.cons.inj hlog
          have hafter := (hmoved _ List.mem_cons_self).after_eq
          have hsplit := ih hrest fun d hd => hmoved d (List.mem_cons_of_mem _ hd)
          rw [stored, lastStored_append, ← hafter]
          exact hsplit

theorem serveAll_last (h : serveAll transfer status disk rqs = .ok (last, log))
    (hmoved : ∀ c ∈ log, c.Transferred) : last = lastStored disk (stored log) := by
  have hsplit : serveAll transfer status (lastStored disk (stored log)) [] = .ok (last, []) :=
    serveAll_split (by rwa [List.append_nil]) hmoved
  simp only [serveAll, Except.ok.injEq, Prod.mk.injEq, and_true] at hsplit
  exact hsplit.symm

/-- Every chunk found what the ones before it had stored. -/
theorem serveAll_before {c : Completion}
    (h : serveAll transfer status disk rqs = .ok (last, pre ++ c :: post))
    (hmoved : ∀ d ∈ pre, d.Transferred) : c.before = lastStored disk (stored pre) := by
  have hsplit := serveAll_split h hmoved
  simp only [List.map_cons, serveAll, bind_eq_ok] at hsplit
  obtain ⟨⟨after, buffer⟩, -, ⟨last', log'⟩, -, heq⟩ := hsplit
  obtain ⟨-, hlog⟩ := Prod.mk.inj (Except.ok.inj heq)
  obtain ⟨hc, -⟩ := List.cons.inj hlog
  rw [← hc]

end

end LddSamples.Block

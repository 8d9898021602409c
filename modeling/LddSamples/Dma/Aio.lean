import LddSamples.Dma.Generic

/-!
# lab6_aio: vectored entry points

`mycdrv_aio_read` and `mycdrv_aio_write` receive an array of segments and the offset
of the request. They hand the first segment on to the generic entry points, and the
new position goes into their own copy of the offset.
-/

namespace LddSamples.Dma.Aio

open Kernel CArith Outcome ByteMap

structure Kiocb where
  kiPos : ℤ

/-- The value returned, the iocb afterwards, and what each segment received. -/
structure AioRead where
  ret : ℤ
  iocb : Kiocb
  outs : List (List UInt8)

structure AioWrite where
  ret : ℤ
  iocb : Kiocb
  ramdisk : ℕ → UInt8

/-- A segment is its length here, all of it accessible; reading `iov->iov_base` of an
empty array reads behind it. -/
def mycdrvAioRead (ramdisk : ℕ → UInt8) (iocb : Kiocb) (iov : List ℕ) (offset : ℤ) :
    Except Fault AioRead :=
  match iov with
  | [] => .error .indexOutOfBounds
  | iovLen :: rest => do
      let r ← mycdrvGenericRead ramdisk iovLen offset iovLen
      .ok ⟨r.ret, iocb, r.out :: rest.map fun _ => []⟩

def mycdrvAioWrite (ramdisk : ℕ → UInt8) (iocb : Kiocb) (iov : List (List UInt8)) (offset : ℤ) :
    Except Fault AioWrite :=
  match iov with
  | [] => .error .indexOutOfBounds
  | buf :: _ => do
      let r ← mycdrvGenericWrite ramdisk buf offset buf.length
      .ok ⟨r.ret, iocb, r.ramdisk⟩

/-! ## The segments in order -/

/-- The generic read of one segment after the other, at a running position that the
iocb keeps. -/
def readSegments (ramdisk : ℕ → UInt8) : Kiocb → List ℕ → Except Fault AioRead
  | iocb, [] => .ok ⟨0, iocb, []⟩
  | iocb, iovLen :: rest => do
      let r ← mycdrvGenericRead ramdisk iovLen iocb.kiPos iovLen
      let t ← readSegments ramdisk ⟨r.pos⟩ rest
      .ok ⟨r.ret + t.ret, t.iocb, r.out :: t.outs⟩

def writeSegments (ramdisk : ℕ → UInt8) : Kiocb → List (List UInt8) → Except Fault AioWrite
  | iocb, [] => .ok ⟨0, iocb, ramdisk⟩
  | iocb, buf :: rest => do
      let r ← mycdrvGenericWrite ramdisk buf iocb.kiPos buf.length
      let t ← writeSegments r.ramdisk ⟨r.pos⟩ rest
      .ok ⟨r.ret + t.ret, t.iocb, t.ramdisk⟩

variable {p : ℕ}

theorem readSegment_eq (ramdisk : ℕ → UInt8) (iovLen : ℕ) (hp : p ≤ RAMDISK_SIZE) :
    mycdrvGenericRead ramdisk iovLen p iovLen =
      .ok ⟨(min iovLen (RAMDISK_SIZE - p) : ℕ), (p + min iovLen (RAMDISK_SIZE - p) : ℕ),
        window ramdisk p (min iovLen (RAMDISK_SIZE - p))⟩ := by
  rw [mycdrvGenericRead_eq ramdisk iovLen iovLen hp, Nat.min_eq_right (Nat.min_le_left _ _)]

theorem writeSegment_eq (ramdisk : ℕ → UInt8) (buf : List UInt8) (hp : p ≤ RAMDISK_SIZE) :
    mycdrvGenericWrite ramdisk buf p buf.length =
      .ok ⟨(min buf.length (RAMDISK_SIZE - p) : ℕ), (p + min buf.length (RAMDISK_SIZE - p) : ℕ),
        overwrite ramdisk p (buf.take (RAMDISK_SIZE - p))⟩ := by
  have htake : buf.take (min buf.length (RAMDISK_SIZE - p)) = buf.take (RAMDISK_SIZE - p) := by
    rw [Nat.min_comm, ← List.take_eq_take_min]
  rw [mycdrvGenericWrite_eq ramdisk buf buf.length hp, Nat.min_eq_right (Nat.min_le_left _ _),
    Nat.sub_self, List.replicate_zero, List.append_nil, htake]

/-- The segments together transfer what one segment of their total length would. -/
theorem readSegments_total (ramdisk : ℕ → UInt8) (iov : List ℕ) (hp : p ≤ RAMDISK_SIZE) :
    ∃ t, readSegments ramdisk ⟨p⟩ iov = .ok t ∧
      t.ret = (min iov.sum (RAMDISK_SIZE - p) : ℕ) ∧ t.iocb.kiPos = p + t.ret ∧
      t.outs.flatten = window ramdisk p (min iov.sum (RAMDISK_SIZE - p)) := by
  induction iov generalizing p with
  | nil => exact ⟨_, rfl, by simp, by simp, by simp⟩
  | cons iovLen rest ih =>
      obtain ⟨t, hrest, hret, hpos, houts⟩ := ih (p := p + min iovLen (RAMDISK_SIZE - p)) (by omega)
      have hsplit : min (iovLen + rest.sum) (RAMDISK_SIZE - p) =
          min iovLen (RAMDISK_SIZE - p) +
            min rest.sum (RAMDISK_SIZE - (p + min iovLen (RAMDISK_SIZE - p))) := by omega
      refine ⟨⟨(min iovLen (RAMDISK_SIZE - p) : ℕ) + t.ret, t.iocb,
        window ramdisk p (min iovLen (RAMDISK_SIZE - p)) :: t.outs⟩, ?_, ?_, ?_, ?_⟩
      · simp only [readSegments, readSegment_eq ramdisk iovLen hp, hrest, ok_bind]
      · rw [hret, List.sum_cons, hsplit, Int.natCast_add]
      · rw [hpos]
        push_cast
        ring
      · rw [List.flatten_cons, houts, List.sum_cons, hsplit, window_add]

theorem writeSegments_total (ramdisk : ℕ → UInt8) (iov : List (List UInt8))
    (hp : p ≤ RAMDISK_SIZE) :
    ∃ t, writeSegments ramdisk ⟨p⟩ iov = .ok t ∧
      t.ret = (min iov.flatten.length (RAMDISK_SIZE - p) : ℕ) ∧ t.iocb.kiPos = p + t.ret ∧
      t.ramdisk = overwrite ramdisk p (iov.flatten.take (RAMDISK_SIZE - p)) := by
  induction iov generalizing p ramdisk with
  | nil => exact ⟨_, rfl, by simp, by simp, by simp⟩
  | cons buf rest ih =>
      obtain ⟨t, hrest, hret, hpos, hramdisk⟩ :=
        ih (overwrite ramdisk p (buf.take (RAMDISK_SIZE - p)))
          (p := p + min buf.length (RAMDISK_SIZE - p)) (by omega)
      have hsplit : min (buf.length + rest.flatten.length) (RAMDISK_SIZE - p) =
          min buf.length (RAMDISK_SIZE - p) +
            min rest.flatten.length (RAMDISK_SIZE - (p + min buf.length (RAMDISK_SIZE - p))) := by
        omega
      have hroom : RAMDISK_SIZE - (p + min buf.length (RAMDISK_SIZE - p)) =
          RAMDISK_SIZE - p - buf.length := by omega
      have hnext : p + min buf.length (RAMDISK_SIZE - p) =
          p + (buf.take (RAMDISK_SIZE - p)).length := by
        rw [List.length_take, Nat.min_comm]
      refine ⟨⟨(min buf.length (RAMDISK_SIZE - p) : ℕ) + t.ret, t.iocb, t.ramdisk⟩, ?_, ?_, ?_, ?_⟩
      · simp only [writeSegments, writeSegment_eq ramdisk buf hp, hrest, ok_bind]
      · rw [hret, List.flatten_cons, List.length_append, hsplit, Int.natCast_add]
      · rw [hpos]
        push_cast
        ring
      · rw [hramdisk, hroom, hnext, overwrite_append, List.flatten_cons, List.take_append]

/-! ## Agreement -/

/-- Nothing is asked for, or nothing is left on the ram disk. -/
def Nothing (total p : ℕ) : Prop := total = 0 ∨ p = RAMDISK_SIZE

theorem readSegments_nothing (ramdisk : ℕ → UInt8) {iov : List ℕ} (hp : p ≤ RAMDISK_SIZE)
    (hnone : Nothing iov.sum p) :
    readSegments ramdisk ⟨p⟩ iov = .ok ⟨0, ⟨p⟩, iov.map fun _ => []⟩ := by
  induction iov with
  | nil => rfl
  | cons iovLen rest ih =>
      unfold Nothing at hnone
      rw [List.sum_cons] at hnone
      have hzero : min iovLen (RAMDISK_SIZE - p) = 0 := by omega
      have hrest : Nothing rest.sum p := by
        unfold Nothing
        omega
      simp only [readSegments, readSegment_eq ramdisk iovLen hp, hzero, ok_bind, Nat.add_zero,
        ih hrest]
      rfl

theorem writeSegments_nothing (ramdisk : ℕ → UInt8) {iov : List (List UInt8)}
    (hp : p ≤ RAMDISK_SIZE) (hnone : Nothing iov.flatten.length p) :
    writeSegments ramdisk ⟨p⟩ iov = .ok ⟨0, ⟨p⟩, ramdisk⟩ := by
  obtain ⟨t, ht, hret, hpos, hramdisk⟩ := writeSegments_total ramdisk iov hp
  have hzero : min iov.flatten.length (RAMDISK_SIZE - p) = 0 := by
    unfold Nothing at hnone
    omega
  have htake : iov.flatten.take (RAMDISK_SIZE - p) = [] := by
    rw [List.take_eq_nil_iff, ← List.length_eq_zero_iff]
    omega
  rw [hzero] at hret
  rw [htake, overwrite_nil] at hramdisk
  obtain ⟨ret, ⟨kiPos⟩, content⟩ := t
  simp only at hret hpos hramdisk
  subst hret hpos hramdisk
  simpa using ht

/-- The vectored entry points agree with the generic ones applied to the segments in
order exactly when there is a segment and nothing is transferred. -/
theorem aio_agrees_iff (ramdisk : ℕ → UInt8) (p : ℕ) (hp : p ≤ RAMDISK_SIZE) :
    (∀ iov : List ℕ, mycdrvAioRead ramdisk ⟨p⟩ iov p = readSegments ramdisk ⟨p⟩ iov ↔
      iov ≠ [] ∧ Nothing iov.sum p) ∧
    ∀ iov : List (List UInt8), mycdrvAioWrite ramdisk ⟨p⟩ iov p = writeSegments ramdisk ⟨p⟩ iov ↔
      iov ≠ [] ∧ Nothing iov.flatten.length p := by
  constructor
  · intro iov
    obtain ⟨t, ht, hret, hpos, -⟩ := readSegments_total ramdisk iov hp
    cases iov with
    | nil => simp [mycdrvAioRead, readSegments]
    | cons iovLen rest =>
        constructor
        · intro hagree
          rw [ht, mycdrvAioRead, readSegment_eq ramdisk iovLen hp, ok_bind] at hagree
          have hstill : (p : ℤ) = t.iocb.kiPos :=
            congrArg (fun r : AioRead => r.iocb.kiPos) (Except.ok.inj hagree)
          refine ⟨List.cons_ne_nil _ _, ?_⟩
          unfold Nothing
          omega
        · rintro ⟨-, hnone⟩
          rw [readSegments_nothing ramdisk hp hnone, mycdrvAioRead,
            readSegment_eq ramdisk iovLen hp]
          unfold Nothing at hnone
          rw [List.sum_cons] at hnone
          have hzero : min iovLen (RAMDISK_SIZE - p) = 0 := by omega
          rw [hzero]
          rfl
  · intro iov
    obtain ⟨t, ht, hret, hpos, -⟩ := writeSegments_total ramdisk iov hp
    cases iov with
    | nil => simp [mycdrvAioWrite, writeSegments]
    | cons buf rest =>
        constructor
        · intro hagree
          rw [ht, mycdrvAioWrite, writeSegment_eq ramdisk buf hp, ok_bind] at hagree
          have hstill : (p : ℤ) = t.iocb.kiPos :=
            congrArg (fun r : AioWrite => r.iocb.kiPos) (Except.ok.inj hagree)
          refine ⟨List.cons_ne_nil _ _, ?_⟩
          unfold Nothing
          omega
        · rintro ⟨-, hnone⟩
          rw [writeSegments_nothing ramdisk hp hnone, mycdrvAioWrite,
            writeSegment_eq ramdisk buf hp]
          unfold Nothing at hnone
          rw [List.flatten_cons, List.length_append] at hnone
          have hzero : min buf.length (RAMDISK_SIZE - p) = 0 := by omega
          have htake : buf.take (RAMDISK_SIZE - p) = [] := by
            rw [List.take_eq_nil_iff, ← List.length_eq_zero_iff]
            omega
          rw [hzero, htake, overwrite_nil]
          rfl

theorem emptySegments_agree_iff :
    (mycdrvAioRead (fun _ => 0) ⟨(5 : ℕ)⟩ [0, 0] (5 : ℕ) =
        readSegments (fun _ => 0) ⟨(5 : ℕ)⟩ [0, 0] ↔
      [0, 0] ≠ [] ∧ Nothing [0, 0].sum 5) ∧
    (mycdrvAioWrite (fun _ => 0) ⟨(5 : ℕ)⟩ [[], []] (5 : ℕ) =
        writeSegments (fun _ => 0) ⟨(5 : ℕ)⟩ [[], []] ↔
      [([] : List UInt8), []] ≠ [] ∧ Nothing [([] : List UInt8), []].flatten.length 5) := by
  obtain ⟨hread, hwrite⟩ := aio_agrees_iff (fun _ => 0) 5 (by decide)
  exact ⟨hread [0, 0], hwrite [[], []]⟩

/-- Of two segments of one byte only the first is transferred, and `ki_pos` stays. -/
theorem secondSegment_left_out :
    (∃ r t, mycdrvAioRead (fun _ => 7) ⟨0⟩ [1, 1] 0 = .ok r ∧
      readSegments (fun _ => 7) ⟨0⟩ [1, 1] = .ok t ∧ r.ret = 1 ∧ t.ret = 2 ∧
      r.iocb.kiPos = 0 ∧ t.iocb.kiPos = 2 ∧ r.outs = [[7], []] ∧ t.outs = [[7], [7]]) ∧
    ∃ r t, mycdrvAioWrite (fun _ => 0) ⟨0⟩ [[7], [8]] 0 = .ok r ∧
      writeSegments (fun _ => 0) ⟨0⟩ [[7], [8]] = .ok t ∧ r.ret = 1 ∧ t.ret = 2 ∧
      r.iocb.kiPos = 0 ∧ t.iocb.kiPos = 2 ∧ r.ramdisk 1 = 0 ∧ t.ramdisk 1 = 8 :=
  ⟨⟨_, _, rfl, rfl, rfl, rfl, rfl, rfl, rfl, rfl⟩, ⟨_, _, rfl, rfl, rfl, rfl, rfl, rfl, rfl, rfl⟩⟩

end LddSamples.Dma.Aio

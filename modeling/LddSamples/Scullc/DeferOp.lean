import LddSamples.Scullc.Invariant

/-!
# The iterator path of scullc

`read_iter` and `write_iter` are the only transfers in `scullc_fops`. Both go
through `scullc_defer_op`, which moves the data through a buffer of its own and
calls the plain routines with `aio` set.
-/

namespace LddSamples.Scullc

open Kernel CArith Outcome ByteMap

/-- `copy_to_iter` and `copy_from_iter`: how many bytes they copy, given the
count asked for and the number of bytes the iterator has left. -/
structure IterCopy where
  toIter : ℕ → ℕ → ℕ
  fromIter : ℕ → ℕ → ℕ
  toIter_le : ∀ n room, toIter n room ≤ min n room
  fromIter_le : ∀ n avail, fromIter n avail ≤ min n avail

inductive IovIter
  | source (data : List UInt8)
  | dest (room : ℕ)

def IovIter.count : IovIter → ℕ
  | .source data => data.length
  | .dest room => room

/-- What `scullc_defer_op` leaves behind. `queued` is the result that
`scullc_do_deferred_op` will pass to `ki_complete`. -/
structure Deferred extends Transfer where
  queued : Option ℤ

/-- The copy through the buffer. Its last bytes are whatever `kmalloc` left there
when the read stored fewer than `total`. -/
def scullcBounce (c : IterCopy) (env : Env) (m : Module) (heap : Heap) (dev : ScullcDev) (pos : ℤ) :
    IovIter → Except Fault Transfer
  | .source data => do
      let result := toInt32 (c.fromIter data.length data.length)
      let t ← scullcDoWrite env m heap dev (data.take (c.fromIter data.length data.length))
        (toUInt64 result) pos true
      .ok { t with ret := toInt32 t.ret }
  | .dest total => do
      let t ← scullcDoRead env m heap dev total pos true
      let result := c.toIter (toUInt64 (toInt32 t.ret)) total
      let buf := t.out ++ List.replicate (total - t.out.length) none
      .ok { t with ret := toInt32 result, out := buf.take result }

def scullcDeferOp (c : IterCopy) (env : Env) (m : Module) (heap : Heap) (dev : ScullcDev)
    (iter : IovIter) (pos : ℤ) (isSync : Bool) : Except Fault Deferred :=
  match kmalloc env heap with
  | (none, heap) => .ok ⟨⟨-ENOMEM, pos, [], dev, heap⟩, none⟩
  | (some buf, heap) => do
      let t ← scullcBounce c env m heap dev pos iter
      let heap := kfree t.heap buf
      if isSync then .ok ⟨{ t with heap := heap }, none⟩
      else
        match kmalloc env heap with
        | (none, heap) => .ok ⟨{ t with heap := heap }, none⟩
        | (some _, heap) => .ok ⟨{ t with ret := -EIOCBQUEUED, heap := heap }, some t.ret⟩

def scullcReadIter (c : IterCopy) (env : Env) (m : Module) (heap : Heap) (dev : ScullcDev)
    (room : ℕ) (pos : ℤ) (isSync : Bool) : Except Fault Deferred :=
  scullcDeferOp c env m heap dev (.dest room) pos isSync

def scullcWriteIter (c : IterCopy) (env : Env) (m : Module) (heap : Heap) (dev : ScullcDev)
    (data : List UInt8) (pos : ℤ) (isSync : Bool) : Except Fault Deferred :=
  scullcDeferOp c env m heap dev (.source data) pos isSync

/-! ## Agreement with the plain path -/

/-- Size and stored bytes are the same; where the quanta live is not compared. -/
structure SameContents (dev dev₁ : ScullcDev) : Prop where
  size : dev₁.size = dev.size
  cells : ∀ i j, (dev₁.quantumAt i j).map Quantum.cells = (dev.quantumAt i j).map Quantum.cells

theorem SameContents.of_sameData {dev dev₁ dev₂ : ScullcDev} (h₁ : SameData dev dev₁)
    (h₂ : SameData dev dev₂) : SameContents dev₁ dev₂ where
  size := h₂.size.trans h₁.size.symm
  cells i j := by rw [h₁.quantumAt, h₂.quantumAt]

/-- Both paths return, with the same count, position, bytes, size and contents. -/
def Agrees (plain : Except Fault Transfer) (iter : Except Fault Deferred) : Prop :=
  ∃ t d, plain = .ok t ∧ iter = .ok d ∧ d.ret = t.ret ∧ d.pos = t.pos ∧ d.out = t.out ∧
    SameContents t.dev d.dev

def Env.willing (signalled : Bool) : Env := ⟨signalled, fun _ => true, fun n => n⟩

def Stored (dev : ScullcDev) (quantum qset pos : ℤ) : Prop :=
  ∃ loc data mem, locate quantum qset pos = .ok loc ∧
    dev.dataAt (toUInt32 loc.item) = some data ∧ data.fetch loc.sPos = .ok (some mem)

/-- `-EFAULT` as the `size_t` that `copy_to_iter` is given. -/
def EFAULT_COUNT : ℕ := 18446744073709551602

variable {c : IterCopy} {m : Module} {heap : Heap} {dev : ScullcDev} {pos : ℤ}

theorem scullcDeferOp_sync {env : Env} {iter : IovIter} {d : Deferred}
    (hgrants : env.grants heap.requests = true) :
    scullcDeferOp c env m heap dev iter pos true = .ok d ↔
      ∃ t, scullcBounce c env m { heap with requests := heap.requests + 1 } dev pos iter = .ok t ∧
        d = ⟨{ t with heap := kfree t.heap heap.requests }, none⟩ := by
  have halloc : kmalloc env heap =
      (some heap.requests, { heap with requests := heap.requests + 1 }) := by
    simp [kmalloc, hgrants]
  simp only [scullcDeferOp, halloc, bind_eq_ok, if_true, Except.ok.injEq]
  constructor
  · rintro ⟨t, hbounce, rfl⟩
    exact ⟨t, hbounce, rfl⟩
  · rintro ⟨t, hbounce, rfl⟩
    exact ⟨t, hbounce, rfl⟩

theorem writeLocked_aio {env : Env} {quantum qset : ℤ} {buf : List UInt8} {count : ℕ}
    {r : Transfer} (h : writeLocked env m heap dev quantum qset buf count pos true = .ok r) :
    r.ret = -ENOMEM ∨ r.ret = -EFAULT := by
  rcases writeLocked_ok h with ⟨dev₁, heap₁, -, rfl⟩ | ⟨t, dev₁, heap₁, -, rfl⟩
  · exact .inl rfl
  · exact .inr (by simp [writeCopy])

theorem writeTarget_calm_ne_none {quantum qset : ℤ} {count : ℕ} {dev₁ : ScullcDev} {heap₁ : Heap}
    (hqset : 0 ≤ qset) :
    writeTarget Env.calm m heap dev quantum qset count pos ≠ .ok (none, dev₁, heap₁) := by
  intro h
  simp only [writeTarget, bind_eq_ok, Prod.exists] at h
  obtain ⟨loc, -, items, heap₂, -, h⟩ := h
  split at h
  · next hensure =>
      revert hensure
      cases ({ dev with next := items } : ScullcDev).dataAt (toUInt32 loc.item) with
      | some data => simp [ensureData]
      | none => simp [ensureData, Int.not_lt.mpr hqset]
  · next data heap₃ hensure =>
      simp only [bind_eq_ok, Prod.exists] at h
      obtain ⟨slot, -, got, heap₄, hquantum, h⟩ := h
      cases got with
      | some mem => simp at h
      | none => cases slot <;> simp [ensureQuantum] at hquantum

theorem writeIter_agrees_iff (signalled : Bool) (hqset : 0 < dev.qset) (data : List UInt8) :
    Agrees (scullcWrite (Env.willing signalled) m heap dev data pos)
      (scullcWriteIter c (Env.willing signalled) m heap dev data pos true) ↔
      signalled = true := by
  cases signalled with
  | true =>
      simp only [iff_true]
      refine ⟨_, _, rfl, rfl, ?_, rfl, rfl, .of_sameData (.refl dev) (.refl dev)⟩
      exact (by decide : toInt32 (-ERESTARTSYS) = -ERESTARTSYS)
  | false =>
      simp only [Bool.false_eq_true, iff_false]
      rintro ⟨t, d, hplain, hiter, hret, -⟩
      have hnonneg : 0 ≤ t.ret := by
        have hplain : writeLocked Env.calm m heap dev.lock dev.quantum dev.qset data data.length
            pos false = .ok t := hplain
        rcases writeLocked_ok hplain with
          ⟨dev₁, heap₁, htarget, -⟩ | ⟨t₁, dev₁, heap₁, -, rfl⟩
        · exact absurd htarget (writeTarget_calm_ne_none (Int.le_of_lt hqset))
        · rw [writeCopy_calm]
          exact Int.natCast_nonneg _
      obtain ⟨r, hbounce, rfl⟩ := (scullcDeferOp_sync rfl).mp hiter
      simp only [scullcBounce, bind_eq_ok, Except.ok.injEq] at hbounce
      obtain ⟨w, hwrite, rfl⟩ := hbounce
      have hret : toInt32 w.ret = t.ret := hret
      have hwrite : writeLocked Env.calm m { heap with requests := heap.requests + 1 } dev.lock
          dev.quantum dev.qset _ _ pos true = .ok w := hwrite
      rcases writeLocked_aio hwrite with hw | hw
      · rw [hw] at hret
        have : toInt32 (-ENOMEM) = -12 := rfl
        omega
      · rw [hw] at hret
        have : toInt32 (-EFAULT) = -14 := rfl
        omega

theorem hole_lock {quantum qset : ℤ} :
    Hole dev.lock quantum qset pos ↔ Hole dev quantum qset pos := by
  simp [Hole]

theorem ReadFinds.stored {quantum qset : ℤ} {count : ℕ} {bytes : List Cell}
    (h : ReadFinds m dev.lock quantum qset count pos bytes) : Stored dev quantum qset pos := by
  obtain ⟨-, loc, data, mem, hloc, hdata, hfetch, -⟩ := h
  rw [ScullcDev.lock_dataAt] at hdata
  exact ⟨loc, data, mem, hloc, hdata, hfetch⟩

theorem ReadFinds.length {quantum qset : ℤ} {n : ℕ} {bytes : List Cell}
    (h : ReadFinds m dev quantum qset n pos bytes) (hquantum : 0 < quantum)
    (hint : quantum ≤ INT_MAX) (hsize : dev.size < 18446744073709551616) (hlow : 0 ≤ pos)
    (hhigh : pos < 9223372036854775808) (hn : n ≤ MAX_RW_COUNT) :
    bytes.length ≤ n ∧ (bytes.length = 0 ↔ n = 0 ∨ pos = dev.size) := by
  obtain ⟨hin, loc, data, mem, hloc, -, -, -, rfl⟩ := h
  have hmax := MAX_RW_COUNT_eq
  have hpos := toUInt64_of_mem hlow (by omega)
  obtain ⟨hqlow, hqhigh⟩ := locate_qPos hloc hlow hquantum
  rw [window_length, clampCount_of_mem hqlow hqhigh hint,
    clampSize_of_mem hlow (by omega) hsize (by omega)]
  omega

/-- A read that reaches the copy agrees only where it has nothing to copy and
`copy_to_iter` copies nothing either. -/
theorem readIter_found {total : ℕ} {bytes : List Cell} (hlow : 0 ≤ pos)
    (hhigh : pos < 9223372036854775808) (hbytes : bytes.length ≤ total)
    (htotal : total ≤ MAX_RW_COUNT)
    (hfound : ReadFinds m dev.lock dev.quantum dev.qset total pos bytes) :
    Agrees (scullcRead Env.calm m heap dev total pos)
      (scullcReadIter c Env.calm m heap dev total pos true) ↔
      bytes.length = 0 ∧ c.toIter EFAULT_COUNT total = 0 := by
  have hmax := MAX_RW_COUNT_eq
  have hread := readTarget_of_finds Env.calm heap hfound
  have hread' := readTarget_of_finds Env.calm { heap with requests := heap.requests + 1 } hfound
  have hplain : scullcRead Env.calm m heap dev total pos = .ok
      ⟨bytes.length, toInt64 (pos + bytes.length), bytes, dev.lock.unlock, heap⟩ :=
    (readLocked_of_some hread).trans (congrArg Except.ok (readCopy_calm ..))
  have hlocked : scullcDoRead Env.calm m { heap with requests := heap.requests + 1 } dev total pos
      true = .ok ⟨-EFAULT, pos, bytes, dev.lock.unlock,
        { heap with requests := heap.requests + 1 }⟩ := readLocked_of_some hread'
  have hcount : toUInt64 (toInt32 (-EFAULT)) = EFAULT_COUNT := by decide
  have hbounce : scullcBounce c Env.calm m { heap with requests := heap.requests + 1 } dev pos
      (.dest total) = .ok ⟨toInt32 (c.toIter EFAULT_COUNT total), pos,
        (bytes ++ List.replicate (total - bytes.length) none).take (c.toIter EFAULT_COUNT total),
        dev.lock.unlock, { heap with requests := heap.requests + 1 }⟩ := by
    simp only [scullcBounce, hlocked, ok_bind, hcount]
  have hle := c.toIter_le EFAULT_COUNT total
  have hint : toInt32 (c.toIter EFAULT_COUNT total) = c.toIter EFAULT_COUNT total :=
    toInt32_of_mem (by omega) (by unfold INT_MAX; omega)
  have hwrap : toInt64 (pos + bytes.length) = pos → bytes.length = 0 := by
    unfold toInt64
    omega
  constructor
  · rintro ⟨t, d, ht, hd, hret, hpos, -⟩
    obtain rfl := Except.ok.inj (hplain.symm.trans ht)
    obtain ⟨r, hr, rfl⟩ := (scullcDeferOp_sync rfl).mp hd
    obtain rfl := Except.ok.inj (hbounce.symm.trans hr)
    have hzero := hwrap hpos.symm
    have hret : toInt32 (c.toIter EFAULT_COUNT total) = (bytes.length : ℤ) := hret
    refine ⟨hzero, ?_⟩
    omega
  · rintro ⟨hzero, hiter⟩
    refine ⟨_, _, hplain, (scullcDeferOp_sync rfl).mpr ⟨_, hbounce, rfl⟩, ?_, ?_, ?_, ?_⟩
    · rw [hiter] at hint
      simp only [hiter, hzero, hint]
    · simp only [hzero, Nat.cast_zero, Int.add_zero]
      exact (toInt64_of_mem (by omega) hhigh).symm
    · simp only [hiter, List.take_zero, List.length_eq_zero_iff.mp hzero]
    · exact .of_sameData (SameData.lock dev).unlock (SameData.lock dev).unlock

theorem readIter_nothing {total : ℕ}
    (hnothing : dev.size < toUInt64 pos ∨ Hole dev.lock dev.quantum dev.qset pos) :
    Agrees (scullcRead Env.calm m heap dev total pos)
      (scullcReadIter c Env.calm m heap dev total pos true) := by
  have hlock : dev.lock.size < toUInt64 pos ∨ Hole dev.lock dev.quantum dev.qset pos := hnothing
  obtain ⟨dev₁, heap₁, hread, hsame⟩ := readTarget_calm_none (m := m) heap total hlock
  obtain ⟨dev₂, heap₂, hread', hsame'⟩ :=
    readTarget_calm_none (m := m) { heap with requests := heap.requests + 1 } total hlock
  have hlocked : scullcDoRead Env.calm m { heap with requests := heap.requests + 1 } dev total pos
      true = .ok ⟨0, pos, [], dev₂.unlock, heap₂⟩ := readLocked_of_none hread'
  have hle := c.toIter_le (toUInt64 (toInt32 0)) total
  have hzero : c.toIter (toUInt64 (toInt32 0)) total = 0 := by
    have : toUInt64 (toInt32 0) = 0 := by decide
    omega
  have hbounce : scullcBounce c Env.calm m { heap with requests := heap.requests + 1 } dev pos
      (.dest total) = .ok ⟨toInt32 0, pos, [], dev₂.unlock, heap₂⟩ := by
    simp only [scullcBounce, hlocked, ok_bind, hzero, List.take_zero]
    rfl
  have hret : toInt32 0 = 0 := by decide
  refine ⟨_, _, readLocked_of_none hread, (scullcDeferOp_sync rfl).mpr ⟨_, hbounce, rfl⟩, hret,
    rfl, rfl, ?_⟩
  exact .of_sameData ((SameData.lock dev).trans hsame).unlock
    ((SameData.lock dev).trans hsame').unlock

/-- The read paths part wherever a read delivers anything. A negative position is
past the end of any file whose size is one a `loff_t` can reach. -/
theorem readIter_agrees_iff (signalled : Bool) (hquantum : 0 < dev.quantum)
    (hint : dev.quantum ≤ INT_MAX) (hsize : dev.size < 18446744073709551616)
    (hpos : 0 ≤ pos ∨ dev.size < 9223372036854775808) (hmin : -9223372036854775808 ≤ pos)
    (hhigh : pos < 9223372036854775808) {total : ℕ} (htotal : total ≤ MAX_RW_COUNT) :
    Agrees (scullcRead (Env.willing signalled) m heap dev total pos)
      (scullcReadIter c (Env.willing signalled) m heap dev total pos true) ↔
      signalled = false ∧ (dev.size < toUInt64 pos ∨ Hole dev dev.quantum dev.qset pos ∨
        (Stored dev dev.quantum dev.qset pos ∧ (total = 0 ∨ pos = dev.size) ∧
          c.toIter EFAULT_COUNT total = 0)) := by
  have hmax := MAX_RW_COUNT_eq
  cases signalled with
  | true =>
      simp only [Bool.true_eq_false, false_and, iff_false]
      -- a signal ends the plain read with an error, the other path with a count
      rintro ⟨t, d, ht, hd, hret, -⟩
      obtain rfl : ⟨-ERESTARTSYS, pos, [], dev, heap⟩ = t := Except.ok.inj ht
      obtain ⟨r, hr, rfl⟩ := (scullcDeferOp_sync rfl).mp hd
      have hr : r.ret = toInt32 (c.toIter (toUInt64 (toInt32 (-ERESTARTSYS))) total) :=
        (congrArg Transfer.ret (Except.ok.inj hr)).symm
      have hret : r.ret = -512 := hret
      have hle := c.toIter_le (toUInt64 (toInt32 (-ERESTARTSYS))) total
      rw [toInt32_of_mem (by omega) (by unfold INT_MAX; omega)] at hr
      omega
  | false =>
      simp only [true_and]
      by_cases hend : dev.size < toUInt64 pos
      · exact iff_of_true (readIter_nothing (.inl hend)) (.inl hend)
      have hlow : 0 ≤ pos := by
        unfold toUInt64 at hend
        omega
      have hcast := toUInt64_of_mem hlow (by omega)
      simp only [hend, false_or]
      constructor
      · intro hagrees
        obtain ⟨t, d, ht, -⟩ := id hagrees
        have ht : readLocked Env.calm m heap dev.lock dev.quantum dev.qset total pos false =
            .ok t := ht
        rcases readLocked_ok ht with
          ⟨dev₁, heap₁, htarget, -⟩ | ⟨bytes, dev₁, heap₁, htarget, -⟩
        · exact .inl (hole_lock.mp ((readTarget_none htarget).2.resolve_left hend))
        · have hfound := (readTarget_some htarget).2
          obtain ⟨hle, hzero⟩ := hfound.length hquantum hint hsize hlow hhigh htotal
          obtain ⟨hlen, hiter⟩ := (readIter_found hlow hhigh hle htotal hfound).mp hagrees
          exact .inr ⟨hfound.stored, hzero.mp hlen, hiter⟩
      · rintro (hhole | ⟨⟨loc, data, mem, hloc, hdata, hfetch⟩, hnone, hiter⟩)
        · exact readIter_nothing (.inr (hole_lock.mpr hhole))
        obtain ⟨hqlow, hqhigh⟩ := locate_qPos hloc hlow hquantum
        have hempty : clampCount dev.quantum loc.qPos (clampSize dev.size pos total) = 0 := by
          rw [clampCount_of_mem hqlow hqhigh hint,
            clampSize_of_mem hlow (by omega) hsize (by omega)]
          omega
        have hfound : ReadFinds m dev.lock dev.quantum dev.qset total pos [] := by
          refine ⟨Nat.not_lt.mp hend, loc, data, mem, hloc, ?_, hfetch, ?_, ?_⟩
          · rwa [ScullcDev.lock_dataAt]
          · exact .inl hempty
          · rw [ScullcDev.lock_size, hempty, window_zero]
        exact (readIter_found hlow hhigh (Nat.zero_le _) htotal hfound).mpr ⟨rfl, hiter⟩

/-- The iterator path agrees with the plain one on a write when a signal is
pending, and on a read when none is and the read has nothing to deliver. -/
theorem iter_agrees_iff (c : IterCopy) (m : Module) (heap : Heap) (dev : ScullcDev) (pos : ℤ)
    (signalled : Bool) (hquantum : 0 < dev.quantum) (hint : dev.quantum ≤ INT_MAX)
    (hqset : 0 < dev.qset) (hsize : dev.size < 18446744073709551616)
    (hpos : 0 ≤ pos ∨ dev.size < 9223372036854775808) (hmin : -9223372036854775808 ≤ pos)
    (hhigh : pos < 9223372036854775808) :
    (∀ data : List UInt8,
      Agrees (scullcWrite (Env.willing signalled) m heap dev data pos)
        (scullcWriteIter c (Env.willing signalled) m heap dev data pos true) ↔
        signalled = true) ∧
    ∀ total ≤ MAX_RW_COUNT,
      Agrees (scullcRead (Env.willing signalled) m heap dev total pos)
        (scullcReadIter c (Env.willing signalled) m heap dev total pos true) ↔
        signalled = false ∧ (dev.size < toUInt64 pos ∨ Hole dev dev.quantum dev.qset pos ∨
          (Stored dev dev.quantum dev.qset pos ∧ (total = 0 ∨ pos = dev.size) ∧
            c.toIter EFAULT_COUNT total = 0)) :=
  ⟨writeIter_agrees_iff signalled hqset, fun _ htotal =>
    readIter_agrees_iff signalled hquantum hint hsize hpos hmin hhigh htotal⟩

/-- Iterator copies that meet no fault and refuse counts above `INT_MAX`. -/
def IterCopy.checked : IterCopy where
  toIter n room := if (n : ℤ) ≤ INT_MAX then min n room else 0
  fromIter n avail := if (n : ℤ) ≤ INT_MAX then min n avail else 0
  toIter_le n room := by split <;> omega
  fromIter_le n avail := by split <;> omega

theorem iter_agrees_initial :
    (∀ data : List UInt8,
      Agrees (scullcWrite (Env.willing false) Module.initial ⟨0, []⟩ .initial data 0)
        (scullcWriteIter .checked (Env.willing false) Module.initial ⟨0, []⟩ .initial data 0 true) ↔
        false = true) ∧
    ∀ total ≤ MAX_RW_COUNT,
      Agrees (scullcRead (Env.willing false) Module.initial ⟨0, []⟩ .initial total 0)
        (scullcReadIter .checked (Env.willing false) Module.initial ⟨0, []⟩ .initial total 0 true) ↔
        false = false ∧ (0 < toUInt64 0 ∨ Hole .initial 4000 500 0 ∨
          (Stored .initial 4000 500 0 ∧ (total = 0 ∨ (0 : ℤ) = (0 : ℕ)) ∧
            IterCopy.checked.toIter EFAULT_COUNT total = 0)) :=
  iter_agrees_iff .checked Module.initial ⟨0, []⟩ .initial 0 false (by decide) (by decide)
    (by decide) (by decide) (by decide) (by decide) (by decide)

/-- One byte written at the start of a new device: the plain path stores it and
returns 1, `write_iter` returns `-EFAULT`. -/
theorem first_write_iter :
    (scullcWrite Env.calm Module.initial ⟨0, []⟩ .initial [7] 0).map Transfer.ret = .ok 1 ∧
      (scullcWriteIter .checked Env.calm Module.initial ⟨0, []⟩ .initial [7] 0 true).map
        (fun d => d.ret) = .ok (-14) ∧
      ¬ Agrees (scullcWrite Env.calm Module.initial ⟨0, []⟩ .initial [7] 0)
        (scullcWriteIter .checked Env.calm Module.initial ⟨0, []⟩ .initial [7] 0 true) := by
  have hplain : (scullcWrite Env.calm Module.initial ⟨0, []⟩ .initial [7] 0).map Transfer.ret =
      .ok 1 := by rfl
  have hiter : (scullcWriteIter .checked Env.calm Module.initial ⟨0, []⟩ .initial [7] 0 true).map
      (fun d => d.ret) = .ok (-14) := by rfl
  refine ⟨hplain, hiter, ?_⟩
  rintro ⟨t, d, ht, hd, hret, -⟩
  rw [ht] at hplain
  rw [hd] at hiter
  have hone : t.ret = 1 := Except.ok.inj hplain
  have hfault : d.ret = -14 := Except.ok.inj hiter
  omega

end LddSamples.Scullc

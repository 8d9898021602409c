import LddSamples.Scullc.DeferOp
import LddSamples.Scullc.WriteBytes

/-!
# What scullc_defer_op hands over

The bounce buffer is not initialised. Of what it holds after the read only the bytes
that the read stored may go to the caller, and their number is the result of the read.
-/

namespace LddSamples.Scullc

open Kernel CArith Outcome ByteMap

variable {c : IterCopy} {env : Env} {m : Module} {heap : Heap} {dev : ScullcDev} {pos : ℤ}
  {isSync : Bool}

/-- The result of the operation: returned at once, or passed to `ki_complete` later. -/
def Deferred.result (d : Deferred) : ℤ := d.queued.getD d.ret

/-- With a result `r` of the read, the first `max r 0` bytes that it stored, and `r`. -/
structure HandsOver (t : Transfer) (d : Deferred) : Prop where
  out_eq : d.out = t.out.take t.ret.toNat
  length_eq : d.out.length = t.ret.toNat
  result_eq : d.result = t.ret

/-- Whatever the read into the bounce buffer returns is handed over. -/
def ReadHandsOver (c : IterCopy) (env : Env) (m : Module) (heap : Heap) (dev : ScullcDev)
    (total : ℕ) (pos : ℤ) (isSync : Bool) : Prop :=
  ∀ t d, env.grants heap.requests = true →
    scullcDoRead env m (kmalloc env heap).2 dev total pos true = .ok t →
    scullcReadIter c env m heap dev total pos isSync = .ok d → HandsOver t d

/-- What the write branch does with the bytes that it obtained. -/
structure WriteStores (env : Env) (heap : Heap) (dev : ScullcDev) (loc : Loc)
    (obtained : List UInt8) (d : Deferred) : Prop where
  signalled : env.signalled = true → d.result = -ERESTARTSYS ∧ Stores dev d.dev loc []
  refused : env.signalled = false → Refused env heap dev dev.qset loc →
    d.result = -ENOMEM ∧ Stores dev d.dev loc []
  granted : env.signalled = false → ¬ Refused env heap dev dev.qset loc →
    d.result = -EFAULT ∧
      Stores dev d.dev loc (obtained.take (clampCount dev.quantum loc.qPos obtained.length))

/-- Of a request of `total` bytes, whatever they are, the bytes that `copy_from_iter` obtained
are stored, and nothing else. -/
def WriteHandsOver (c : IterCopy) (env : Env) (m : Module) (heap : Heap) (dev : ScullcDev)
    (total : ℕ) (pos : ℤ) (isSync : Bool) : Prop :=
  ∀ data d loc, data.length = total → env.grants heap.requests = true →
    scullcWriteIter c env m heap dev data pos isSync = .ok d →
    locate dev.quantum dev.qset pos = .ok loc →
    Stores dev d.dev loc (data.take (c.fromIter total total))

/-- Behind the copy only the memory of the operation and the way in which its result
is reported are left to be decided. -/
theorem scullcDeferOp_ok {iter : IovIter} {d : Deferred}
    (hgrants : env.grants heap.requests = true)
    (h : scullcDeferOp c env m heap dev iter pos isSync = .ok d) :
    ∃ t, scullcBounce c env m (kmalloc env heap).2 dev pos iter = .ok t ∧ d.out = t.out ∧
      d.dev = t.dev ∧ d.pos = t.pos ∧ d.result = t.ret := by
  obtain ⟨heap₁, halloc⟩ : ∃ heap₁, kmalloc env heap = (some heap.requests, heap₁) := by
    simp [kmalloc, hgrants]
  simp only [scullcDeferOp, halloc, bind_eq_ok] at h ⊢
  obtain ⟨t, hbounce, h⟩ := h
  refine ⟨t, hbounce, ?_⟩
  split at h
  · cases h
    exact ⟨rfl, rfl, rfl, rfl⟩
  · split at h <;> cases h <;> exact ⟨rfl, rfl, rfl, rfl⟩

theorem scullcDeferOp_returns (isSync : Bool) {iter : IovIter} {t : Transfer}
    (hgrants : env.grants heap.requests = true)
    (h : scullcBounce c env m (kmalloc env heap).2 dev pos iter = .ok t) :
    ∃ d, scullcDeferOp c env m heap dev iter pos isSync = .ok d := by
  obtain ⟨heap₁, halloc⟩ : ∃ heap₁, kmalloc env heap = (some heap.requests, heap₁) := by
    simp [kmalloc, hgrants]
  rw [halloc] at h
  simp only [scullcDeferOp, halloc, h, ok_bind]
  split
  · exact ⟨_, rfl⟩
  · split <;> exact ⟨_, rfl⟩

theorem scullcDoRead_signalled (hsignal : env.signalled = true) (heap : Heap) (total : ℕ) :
    scullcDoRead env m heap dev total pos true = .ok ⟨-ERESTARTSYS, pos, [], dev, heap⟩ := by
  rw [scullcDoRead, hsignal, if_pos rfl]

/-- Into the bounce buffer a read that finds its bytes stores them and fails. -/
theorem scullcDoRead_finds (hsignal : env.signalled = false) (heap : Heap) {total : ℕ}
    {bytes : List Cell} (hfinds : ReadFinds m dev dev.quantum dev.qset total pos bytes) :
    scullcDoRead env m heap dev total pos true =
      .ok ⟨-EFAULT, pos, bytes, dev.lock.unlock, heap⟩ := by
  have hlocked : ReadFinds m dev.lock dev.quantum dev.qset total pos bytes := by
    obtain ⟨hsize, loc, data, mem, hloc, hdata, hrest⟩ := hfinds
    exact ⟨hsize, loc, data, mem, hloc, by rwa [ScullcDev.lock_dataAt], hrest⟩
  have hread : readLocked env m heap dev.lock dev.quantum dev.qset total pos true = _ :=
    readLocked_of_some (readTarget_of_finds env heap hlocked)
  rw [scullcDoRead, hsignal]
  exact hread

/-- A read into the bounce buffer that returns 0 has found nothing. -/
theorem scullcDoRead_finds_nothing (hsignal : env.signalled = false) {total : ℕ} {t : Transfer}
    (hnone : ∀ bytes, ¬ ReadFinds m dev dev.quantum dev.qset total pos bytes)
    (h : scullcDoRead env m heap dev total pos true = .ok t) : t.ret = 0 := by
  rw [scullcDoRead, hsignal] at h
  rcases readLocked_ok h with ⟨dev₁, heap₁, -, rfl⟩ | ⟨bytes, dev₁, heap₁, htarget, -⟩
  · rfl
  · obtain ⟨hsize, loc, data, mem, hloc, hdata, hrest⟩ := (readTarget_some htarget).2
    rw [ScullcDev.lock_dataAt] at hdata
    exact absurd ⟨hsize, loc, data, mem, hloc, hdata, hrest⟩ (hnone bytes)

theorem scullcBounce_dest {total : ℕ} {t : Transfer}
    (hread : scullcDoRead env m heap dev total pos true = .ok t) :
    scullcBounce c env m heap dev pos (.dest total) = .ok
      { t with
        ret := toInt32 (c.toIter (toUInt64 (toInt32 t.ret)) total)
        out := (t.out ++ List.replicate (total - t.out.length) none).take
          (c.toIter (toUInt64 (toInt32 t.ret)) total) } := by
  simp only [scullcBounce, hread, ok_bind]

/-- A result below zero is not handed over: `copy_to_iter` takes it for a count. -/
theorem not_handsOver {total : ℕ} {t : Transfer} (hgrants : env.grants heap.requests = true)
    (hread : scullcDoRead env m (kmalloc env heap).2 dev total pos true = .ok t)
    (hneg : t.ret < 0) : ¬ ReadHandsOver c env m heap dev total pos isSync := by
  intro hhands
  have hbounce := scullcBounce_dest (c := c) hread
  obtain ⟨d, hd⟩ := scullcDeferOp_returns isSync hgrants hbounce
  obtain ⟨-, hlength, hresult⟩ := hhands t d hgrants hread hd
  obtain ⟨w, hw, hout, -, -, hret⟩ := scullcDeferOp_ok hgrants hd
  obtain rfl := Except.ok.inj (hbounce.symm.trans hw)
  have hle := c.toIter_le (toUInt64 (toInt32 t.ret)) total
  -- no byte may be handed over, so `copy_to_iter` would have to copy none and return 0
  rw [hout, List.length_take, List.length_append, List.length_replicate] at hlength
  have hzero : c.toIter (toUInt64 (toInt32 t.ret)) total = 0 := by omega
  have hret : t.ret = toInt32 (c.toIter (toUInt64 (toInt32 t.ret)) total) := hresult.symm.trans hret
  rw [hzero] at hret
  have : toInt32 (0 : ℕ) = 0 := by decide
  omega

/-- A read that returns 0 hands over nothing, and 0. -/
theorem HandsOver.of_nothing {total : ℕ} {t : Transfer} {d : Deferred}
    (hgrants : env.grants heap.requests = true)
    (hread : scullcDoRead env m (kmalloc env heap).2 dev total pos true = .ok t)
    (hret : t.ret = 0) (hd : scullcReadIter c env m heap dev total pos isSync = .ok d) :
    HandsOver t d := by
  obtain ⟨w, hw, hout, -, -, hresult⟩ := scullcDeferOp_ok hgrants hd
  obtain rfl := Except.ok.inj ((scullcBounce_dest hread).symm.trans hw)
  have hle := c.toIter_le (toUInt64 (toInt32 t.ret)) total
  have hcount : toUInt64 (toInt32 t.ret) = 0 := by
    rw [hret]
    decide
  have hzero : c.toIter (toUInt64 (toInt32 t.ret)) total = 0 := by omega
  simp only [hzero, List.take_zero] at hout hresult
  refine ⟨?_, ?_, ?_⟩
  · rw [hout, hret, Int.toNat_zero, List.take_zero]
  · rw [hout, hret, Int.toNat_zero, List.length_nil]
  · rw [hresult, hret]
    decide

theorem readHandsOver_iff (total : ℕ) : ReadHandsOver c env m heap dev total pos isSync ↔
    env.grants heap.requests = false ∨ (env.signalled = false ∧
      ∀ bytes, ¬ ReadFinds m dev dev.quantum dev.qset total pos bytes) := by
  constructor
  · intro hhands
    cases hgrants : env.grants heap.requests with
    | false => exact .inl rfl
    | true =>
        right
        cases hsignal : env.signalled with
        | true =>
            have hneg : -ERESTARTSYS < 0 := by decide
            exact absurd hhands (not_handsOver hgrants (scullcDoRead_signalled hsignal _ _) hneg)
        | false =>
            refine ⟨rfl, fun bytes hfinds => ?_⟩
            have hneg : -EFAULT < 0 := by decide
            exact not_handsOver hgrants (scullcDoRead_finds hsignal _ hfinds) hneg hhands
  · rintro (hgrants | ⟨hsignal, hnone⟩) t d hgranted hread hd
    · rw [hgrants] at hgranted
      cases hgranted
    · exact .of_nothing hgranted hread (scullcDoRead_finds_nothing hsignal hnone hread) hd

/-! ## Writing -/

/-- `scullc_do_write` is given the bytes that were obtained and their number. -/
theorem scullcWriteIter_ok {data : List UInt8} {d : Deferred} (hdata : data.length ≤ MAX_RW_COUNT)
    (hgrants : env.grants heap.requests = true)
    (hd : scullcWriteIter c env m heap dev data pos isSync = .ok d) :
    ∃ t, scullcDoWrite env m (kmalloc env heap).2 dev
        (data.take (c.fromIter data.length data.length)) (c.fromIter data.length data.length) pos
        true = .ok t ∧
      d.dev = t.dev ∧ d.result = toInt32 t.ret := by
  obtain ⟨w, hw, -, hdev, -, hresult⟩ := scullcDeferOp_ok hgrants hd
  have hle := c.fromIter_le data.length data.length
  have hmax := MAX_RW_COUNT_eq
  have hcount : toUInt64 (toInt32 (c.fromIter data.length data.length)) =
      c.fromIter data.length data.length := by
    rw [toInt32_of_mem (by omega) (by unfold INT_MAX; omega)]
    exact toUInt64_natCast (by omega)
  simp only [scullcBounce, hcount, bind_eq_ok, Except.ok.injEq] at hw
  obtain ⟨t, hwrite, rfl⟩ := hw
  exact ⟨t, hwrite, hdev, hresult⟩

theorem writeStores {data : List UInt8} {d : Deferred} {loc : Loc}
    (hdata : data.length ≤ MAX_RW_COUNT) (hgrants : env.grants heap.requests = true)
    (hd : scullcWriteIter c env m heap dev data pos isSync = .ok d)
    (hloc : locate dev.quantum dev.qset pos = .ok loc) :
    WriteStores env (kmalloc env heap).2 dev loc
      (data.take (c.fromIter data.length data.length)) d := by
  obtain ⟨t, hwrite, hdev, hresult⟩ := scullcWriteIter_ok hdata hgrants hd
  have hle := c.fromIter_le data.length data.length
  have hlength : (data.take (c.fromIter data.length data.length)).length =
      c.fromIter data.length data.length := List.length_take_of_le (by omega)
  constructor
  · intro hsignal
    obtain ⟨hret, hstores⟩ := scullcDoWrite_stores_signalled hwrite hsignal
    rw [hresult, hret]
    exact ⟨by decide, hdev ▸ hstores⟩
  · intro hsignal hrefused
    obtain ⟨hret, hstores⟩ := scullcDoWrite_stores_refused hwrite hloc hsignal hrefused
    rw [hresult, hret]
    exact ⟨by decide, hdev ▸ hstores⟩
  · intro hsignal hgranted
    obtain ⟨hret, hstores⟩ := scullcDoWrite_stores_granted hwrite hloc hsignal hgranted
    rw [hresult, hret, hlength]
    exact ⟨by decide, hdev ▸ hstores⟩

/-- In any case a first part of the bytes is stored. -/
theorem WriteStores.exists_take {loc : Loc} {obtained : List UInt8} {d : Deferred}
    (h : WriteStores env heap dev loc obtained d) :
    ∃ k, Stores dev d.dev loc (obtained.take k) := by
  cases hsignal : env.signalled with
  | true => exact ⟨0, (h.signalled hsignal).2⟩
  | false =>
      by_cases hrefused : Refused env heap dev dev.qset loc
      · exact ⟨0, (h.refused hsignal hrefused).2⟩
      · exact ⟨_, (h.granted hsignal hrefused).2⟩

/-- A value that a cell does not hold, and that no cleared cell holds. -/
theorem exists_other (cell : Cell) : ∃ b : UInt8, b ≠ 0 ∧ cell ≠ some b := by
  by_cases hone : cell = some 1
  · exact ⟨2, by decide, by rw [hone]; decide⟩
  · exact ⟨1, by decide, hone⟩

/-- Bytes that are not all stored can be told from those that are there. -/
theorem not_writeHandsOver {total k : ℕ} {loc : Loc} (hgrants : env.grants heap.requests = true)
    (hreturns : ∀ data : List UInt8, data.length = total →
      ∃ d, scullcWriteIter c env m heap dev data pos isSync = .ok d)
    (hloc : locate dev.quantum dev.qset pos = .ok loc) (hk : k < c.fromIter total total)
    (hstores : ∀ data d, data.length = total →
      scullcWriteIter c env m heap dev data pos isSync = .ok d →
      Stores dev d.dev loc ((data.take (c.fromIter total total)).take k)) :
    ¬ WriteHandsOver c env m heap dev total pos isSync := by
  intro hhands
  obtain ⟨b, hzero, hother⟩ := exists_other
    (dev.byteAt (toUInt32 loc.item) loc.sPos.toNat (loc.qPos.toNat + k))
  have hlength : (List.replicate total b).length = total := List.length_replicate
  obtain ⟨d, hd⟩ := hreturns _ hlength
  have hall := hhands _ d loc hlength hgrants hd hloc
  have hle := c.fromIter_le total total
  have hnext := (hstores _ d hlength hd).next_of_take hall (by simp; omega)
  simp only [List.getElem_take, List.getElem_replicate] at hnext
  exact hnext.elim hother hzero

theorem clampCount_lt_iff {quantum qPos : ℤ} {n : ℕ} :
    clampCount quantum qPos n < n ↔ ¬ n ≤ toUInt64 (toInt32 (quantum - qPos)) := by
  unfold clampCount
  split_ifs <;> omega

theorem writeHandsOver_iff {total : ℕ} {loc : Loc} (htotal : total ≤ MAX_RW_COUNT)
    (hreturns : ∀ data : List UInt8, data.length = total →
      ∃ d, scullcWriteIter c env m heap dev data pos isSync = .ok d)
    (hloc : locate dev.quantum dev.qset pos = .ok loc) :
    WriteHandsOver c env m heap dev total pos isSync ↔
      env.grants heap.requests = false ∨ c.fromIter total total = 0 ∨
        (env.signalled = false ∧ ¬ Refused env (kmalloc env heap).2 dev dev.qset loc ∧
          c.fromIter total total ≤ toUInt64 (toInt32 (dev.quantum - loc.qPos))) := by
  have hle := c.fromIter_le total total
  have hlength : ∀ data : List UInt8, data.length = total →
      (data.take (c.fromIter total total)).length = c.fromIter total total :=
    fun data hdata => List.length_take_of_le (by omega)
  have hwrites : ∀ data d, data.length = total → env.grants heap.requests = true →
      scullcWriteIter c env m heap dev data pos isSync = .ok d →
      WriteStores env (kmalloc env heap).2 dev loc (data.take (c.fromIter total total)) d := by
    rintro data d rfl hgrants hd
    exact writeStores htotal hgrants hd hloc
  constructor
  · intro hhands
    by_contra hnot
    simp only [not_or, Bool.not_eq_false] at hnot
    obtain ⟨hgrants, hsome, hless⟩ := hnot
    have hpos := Nat.pos_of_ne_zero hsome
    refine absurd hhands ?_
    cases hsignal : env.signalled with
    | true =>
        exact not_writeHandsOver hgrants hreturns hloc hpos fun data d hdata hd =>
          ((hwrites data d hdata hgrants hd).signalled hsignal).2
    | false =>
        by_cases hrefused : Refused env (kmalloc env heap).2 dev dev.qset loc
        · exact not_writeHandsOver hgrants hreturns hloc hpos fun data d hdata hd =>
            ((hwrites data d hdata hgrants hd).refused hsignal hrefused).2
        · have hcut : clampCount dev.quantum loc.qPos (c.fromIter total total) <
              c.fromIter total total :=
            clampCount_lt_iff.mpr fun hfits => hless ⟨hsignal, hrefused, hfits⟩
          refine not_writeHandsOver hgrants hreturns hloc hcut fun data d hdata hd => ?_
          have hstores := ((hwrites data d hdata hgrants hd).granted hsignal hrefused).2
          rwa [hlength data hdata] at hstores
  · rintro hcases data d loc' hdata hgranted hd hloc'
    obtain rfl := Except.ok.inj (hloc.symm.trans hloc')
    have hstores := hwrites data d hdata hgranted hd
    rcases hcases with hgrants | hnone | ⟨hsignal, hrefused, hfits⟩
    · rw [hgrants] at hgranted
      cases hgranted
    · obtain ⟨k, htake⟩ := hstores.exists_take
      rw [hnone, List.take_zero] at htake ⊢
      rwa [List.take_nil] at htake
    · have hall := (hstores.granted hsignal hrefused).2
      rw [hlength data hdata, clampCount, if_neg (Nat.not_lt.mpr hfits)] at hall
      rwa [List.take_take, min_self] at hall

/-- The write branch stores the first of the bytes that it obtained, up to the end of the
quantum, so all of them exactly where they end before it and neither a signal nor the want of
memory comes first. The read branch hands over what it should exactly where there is no buffer,
or neither a signal nor a quantum at the position. -/
theorem handsOver_iff (c : IterCopy) (env : Env) (m : Module) (heap : Heap) (dev : ScullcDev)
    (pos : ℤ) (isSync : Bool) :
    (∀ data d loc, data.length ≤ MAX_RW_COUNT → env.grants heap.requests = true →
      scullcWriteIter c env m heap dev data pos isSync = .ok d →
      locate dev.quantum dev.qset pos = .ok loc →
      WriteStores env (kmalloc env heap).2 dev loc
        (data.take (c.fromIter data.length data.length)) d) ∧
    (∀ total loc, total ≤ MAX_RW_COUNT →
      (∀ data : List UInt8, data.length = total →
        ∃ d, scullcWriteIter c env m heap dev data pos isSync = .ok d) →
      locate dev.quantum dev.qset pos = .ok loc →
      (WriteHandsOver c env m heap dev total pos isSync ↔
        env.grants heap.requests = false ∨ c.fromIter total total = 0 ∨
          (env.signalled = false ∧ ¬ Refused env (kmalloc env heap).2 dev dev.qset loc ∧
            c.fromIter total total ≤ toUInt64 (toInt32 (dev.quantum - loc.qPos))))) ∧
      ∀ total, ReadHandsOver c env m heap dev total pos isSync ↔
        env.grants heap.requests = false ∨ (env.signalled = false ∧
          ∀ bytes, ¬ ReadFinds m dev dev.quantum dev.qset total pos bytes) :=
  ⟨fun _ _ _ => writeStores, fun _ _ => writeHandsOver_iff, readHandsOver_iff⟩

theorem write_initial (data : List UInt8) :
    ∃ d, scullcWriteIter .checked Env.calm Module.initial ⟨0, []⟩ .initial data 0 true = .ok d := by
  have hloc : locate 4000 500 0 = .ok ⟨0, 0, 0⟩ := rfl
  let n := IterCopy.checked.fromIter data.length data.length
  obtain ⟨t, dev₁, heap₁, htarget⟩ : ∃ t dev₁ heap₁,
      writeTarget Env.calm Module.initial ⟨1, []⟩ ScullcDev.initial.lock 4000 500
        (toUInt64 (toInt32 n)) 0 = .ok (some t, dev₁, heap₁) :=
    writeTarget_calm _ hloc (by decide) (by decide) (by decide)
      (inside_clampCount le_rfl (by decide) (by decide) (by decide) _)
  have hwrite : scullcDoWrite Env.calm Module.initial ⟨1, []⟩ .initial (data.take n)
      (toUInt64 (toInt32 n)) 0 true =
        .ok (writeCopy Env.calm dev₁ heap₁ t (data.take n) 0 true) :=
    writeLocked_of_some htarget
  have hbounce : scullcBounce .checked Env.calm Module.initial ⟨1, []⟩ .initial 0 (.source data) =
      .ok { writeCopy Env.calm dev₁ heap₁ t (data.take n) 0 true with
        ret := toInt32 (writeCopy Env.calm dev₁ heap₁ t (data.take n) 0 true).ret } := by
    rw [scullcBounce, hwrite, ok_bind]
  exact scullcDeferOp_returns true rfl hbounce

/-- A quantum is written from its start to its end and not beyond, and there is nothing to
read. -/
theorem handsOver_initial :
    WriteHandsOver .checked Env.calm Module.initial ⟨0, []⟩ .initial 4000 0 true ∧
      ¬ WriteHandsOver .checked Env.calm Module.initial ⟨0, []⟩ .initial 4001 0 true ∧
      ReadHandsOver .checked Env.calm Module.initial ⟨0, []⟩ .initial 8 0 true := by
  have hloc : locate 4000 500 0 = .ok ⟨0, 0, 0⟩ := rfl
  have hgranted : ¬ Refused Env.calm ⟨1, []⟩ .initial 500 ⟨0, 0, 0⟩ := by
    rintro (h | h | h) <;> cases h
  obtain ⟨-, hwrite, hread⟩ :=
    handsOver_iff .checked Env.calm Module.initial ⟨0, []⟩ .initial 0 true
  refine ⟨?_, ?_, ?_⟩
  · refine (hwrite 4000 _ (by decide) (fun data _ => write_initial data) hloc).mpr ?_
    exact .inr (.inr ⟨rfl, hgranted, by decide⟩)
  · intro hhands
    rcases (hwrite 4001 _ (by decide) (fun data _ => write_initial data) hloc).mp hhands with
      h | h | ⟨-, -, h⟩
    · cases h
    · exact absurd h (by decide)
    · exact absurd h (by decide)
  · refine (hread 8).mpr (.inr ⟨rfl, ?_⟩)
    rintro bytes ⟨-, loc, data, mem, hloc', hdata, -⟩
    obtain rfl := Except.ok.inj (hloc.symm.trans hloc')
    cases hdata

/-- Iterator copies that take any count for the number of bytes to copy. -/
def IterCopy.unchecked : IterCopy where
  toIter n room := min n room
  fromIter n avail := min n avail
  toIter_le _ _ := le_rfl
  fromIter_le _ _ := le_rfl

/-- A signal while the read waits for the mutex: the caller gets 8 bytes that nobody
wrote, and 8 for a result. -/
theorem interrupted_read_leaks :
    (scullcReadIter .unchecked (Env.willing true) Module.initial ⟨0, []⟩ .initial 8 0 true).map
        (fun d => (d.result, d.out)) = .ok (8, List.replicate 8 none) ∧
      ¬ ReadHandsOver .unchecked (Env.willing true) Module.initial ⟨0, []⟩ .initial 8 0 true := by
  constructor
  · have hcopy : IterCopy.unchecked.toIter (toUInt64 (toInt32 (-ERESTARTSYS))) 8 = 8 := by decide
    simp only [scullcReadIter, scullcDeferOp, scullcBounce, scullcDoRead, Env.willing, kmalloc,
      if_true, ok_bind, hcopy]
    rfl
  intro hhands
  rcases (readHandsOver_iff 8).mp hhands with hgrants | ⟨hsignal, -⟩
  · cases hgrants
  · cases hsignal

end LddSamples.Scullc

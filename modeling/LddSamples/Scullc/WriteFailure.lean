import LddSamples.Scullc.Returns

/-!
# Writes that fail

A write that returns an error should leave the file as it was. The walk along the list
goes on through the null pointer of a list item that was not granted, and the copy
stores into the quantum before it is known to be complete.
-/

namespace LddSamples.Scullc

open Kernel CArith Outcome ByteMap

variable {env : Env} {m : Module} {heap heap₁ : Heap} {dev dev₁ : ScullcDev} {buf : List UInt8}
  {quantum qset pos p : ℤ} {count : ℕ} {aio : Bool} {b : Cell} {loc : Loc} {mem : Quantum}

/-! ## The bytes of a device -/

/-- A read of one byte at `p` that nothing disturbs delivers `b`. -/
def ReadsByte (m : Module) (dev : ScullcDev) (p : ℤ) (b : Cell) : Prop :=
  ∃ heap t, scullcRead Env.calm m heap dev 1 p = .ok t ∧ t.out = [b]

def FindsQuantum (dev : ScullcDev) (loc : Loc) (mem : Quantum) : Prop :=
  ∃ data, dev.dataAt (toUInt32 loc.item) = some data ∧ data.fetch loc.sPos = .ok (some mem)

/-- Where the byte that a read at `p` delivers is stored. -/
structure StoredAt (m : Module) (dev : ScullcDev) (p : ℤ) (b : Cell) (loc : Loc)
    (mem : Quantum) : Prop where
  inFile : toUInt64 p ≤ dev.size
  located : locate dev.quantum dev.qset p = .ok loc
  found : FindsQuantum dev loc mem
  one : clampCount dev.quantum loc.qPos (clampSize dev.size p 1) = 1
  inside : 0 ≤ loc.qPos ∧ loc.qPos + 1 ≤ m.objectSize
  cell : mem.cells loc.qPos.toNat = b

theorem readsByte_iff : ReadsByte m dev p b ↔ ∃ loc mem, StoredAt m dev p b loc mem := by
  constructor
  · rintro ⟨heap, t, hread, hout⟩
    have hread : readLocked Env.calm m heap dev.lock dev.quantum dev.qset 1 p false = .ok t :=
      hread
    rcases readLocked_ok hread with ⟨dev₁, heap₁, -, rfl⟩ | ⟨bytes, dev₁, heap₁, htarget, rfl⟩
    · cases hout
    rw [readCopy_calm] at hout
    have hbytes : bytes = [b] := hout
    obtain ⟨hsize, loc, data, mem, hloc, hdata, hfetch, hinside, hwindow⟩ :=
      (readTarget_some htarget).2
    rw [ScullcDev.lock_dataAt] at hdata
    rw [hbytes] at hwindow
    have hone := congrArg List.length hwindow
    rw [window_length] at hone
    rw [ScullcDev.lock_size] at hsize hone hinside hwindow
    have hone : clampCount dev.quantum loc.qPos (clampSize dev.size p 1) = 1 := hone.symm
    rw [hone] at hinside hwindow
    refine ⟨loc, mem, hsize, hloc, ⟨data, hdata, hfetch⟩, hone, ?_, ?_⟩
    · exact hinside.resolve_left Nat.one_ne_zero
    · simpa [window] using hwindow.symm
  · rintro ⟨loc, mem, hsize, hloc, ⟨data, hdata, hfetch⟩, hone, hinside, hcell⟩
    have hfinds : ReadFinds m dev.lock dev.quantum dev.qset 1 p [b] := by
      refine ⟨hsize, loc, data, mem, hloc, ?_, hfetch, ?_, ?_⟩
      · rwa [ScullcDev.lock_dataAt]
      · rw [ScullcDev.lock_size, hone]
        exact .inr hinside
      · rw [ScullcDev.lock_size, hone]
        simp [window, hcell]
    refine ⟨⟨0, []⟩, _, readLocked_of_some (readTarget_of_finds _ _ hfinds), ?_⟩
    rw [readCopy_calm]

theorem StoredAt.of_found {b' : Cell} {mem' : Quantum} (h : StoredAt m dev p b loc mem)
    (hsize : dev₁.size = dev.size) (hquantum : dev₁.quantum = dev.quantum)
    (hqset : dev₁.qset = dev.qset) (hfound : FindsQuantum dev₁ loc mem')
    (hcell : mem'.cells loc.qPos.toNat = b') : StoredAt m dev₁ p b' loc mem' where
  inFile := hsize ▸ h.inFile
  located := by rw [hquantum, hqset, h.located]
  found := hfound
  one := by rw [hquantum, hsize, h.one]
  inside := h.inside
  cell := hcell

theorem FindsQuantum.unlock (h : FindsQuantum dev loc mem) : FindsQuantum dev.unlock loc mem := by
  obtain ⟨data, hdata, hfetch⟩ := h
  exact ⟨data, by rwa [ScullcDev.unlock_dataAt], hfetch⟩

theorem FindsQuantum.lock (h : FindsQuantum dev loc mem) : FindsQuantum dev.lock loc mem := by
  obtain ⟨data, hdata, hfetch⟩ := h
  exact ⟨data, by rwa [ScullcDev.lock_dataAt], hfetch⟩

theorem FindsQuantum.quantumAt (h : FindsQuantum dev loc mem) :
    dev.quantumAt (toUInt32 loc.item) loc.sPos.toNat = some mem ∧ 0 ≤ loc.sPos := by
  obtain ⟨data, hdata, hfetch⟩ := h
  obtain ⟨hindex, hslot⟩ := PtrArray.fetch_eq_ok.mp hfetch
  exact ⟨by rw [ScullcDev.quantumAt, hdata]; exact hslot, hindex.1⟩

theorem FindsQuantum.unique {mem' : Quantum} (h : FindsQuantum dev loc mem)
    (h' : FindsQuantum dev loc mem') : mem' = mem :=
  Option.some.inj (h'.quantumAt.1.symm.trans h.quantumAt.1)

/-! ## Writes that give up before the copy -/

/-- A write that gives up for want of memory keeps every array that was there. -/
theorem writeTarget_none_keeps
    (h : writeTarget env m heap dev quantum qset count pos = .ok (none, dev₁, heap₁)) {i : ℕ}
    {data : PtrArray} (hdata : dev.dataAt i = some data) : dev₁.dataAt i = some data := by
  simp only [writeTarget, bind_eq_ok, Prod.exists] at h
  obtain ⟨loc, -, items, heap₂, hfollow, h⟩ := h
  have hsame := SameData.follow hfollow
  have hlen := (scullcFollow_spec hfollow).1
  split at h
  · cases h
    rwa [hsame.dataAt]
  · next found heap₃ hensure =>
      rw [hsame.dataAt] at hensure
      simp only [bind_eq_ok, Prod.exists] at h
      obtain ⟨slot, -, got, heap₄, -, h⟩ := h
      cases got with
      | some mem => simp at h
      | none =>
          cases h
          rw [ScullcDev.dataAt_setDataAt _ (by simp; omega), hsame.dataAt]
          split
          · next hi =>
              rw [hi] at hdata
              rcases ensureData_some hensure with hold | ⟨hnone, -⟩
              · exact hold.symm.trans hdata
              · rw [hnone] at hdata
                cases hdata
          · exact hdata

/-! ## Writes that reach the copy -/

/-- A quantum that is already there is the one that the copy goes to. -/
theorem writeTarget_of_found (env : Env) (heap : Heap)
    (hloc : locate quantum qset pos = .ok loc) (hfound : FindsQuantum dev loc mem)
    (hinside : Inside m.objectSize loc.qPos (clampCount quantum loc.qPos count)) :
    ∃ t dev₁ heap₁, writeTarget env m heap dev quantum qset count pos =
      .ok (some t, dev₁, heap₁) := by
  obtain ⟨data, hdata, hfetch⟩ := hfound
  exact ⟨_, _, _, by
    simp only [writeTarget, hloc, ok_bind, scullcFollow_of_le (ScullcDev.le_of_dataAt hdata),
      hdata, ensureData, hfetch, ensureQuantum, require_of hinside]; rfl⟩

/-- The array that the copy goes to is as long as the one that was there. -/
theorem WriteFinds.data_len {t : WriteTarget} {data : PtrArray}
    (h : WriteFinds m dev quantum qset count pos t dev₁) (hdata : dev.dataAt t.item = some data) :
    t.data.len = data.len := by
  have hlen := h.len_eq
  rw [ScullcDev.lenAt, hdata] at hlen
  simpa using hlen

theorem FindsQuantum.fill {t : WriteTarget}
    (h : WriteFinds m dev quantum qset count pos t dev₁) (hfound : FindsQuantum dev loc mem)
    (hitem : toUInt32 loc.item = t.item) (hsPos : loc.sPos = t.sPos) (bytes : List Cell) :
    FindsQuantum (t.fill dev₁ bytes) loc
      { mem with cells := overwrite mem.cells t.qPos.toNat bytes } := by
  have hmem : t.mem = mem := by
    have hquantum := hfound.quantumAt.1
    rw [hitem, hsPos] at hquantum
    rcases h.mem_eq with hmem | ⟨hnone, -⟩
    · exact Option.some.inj (hmem.symm.trans hquantum)
    · rw [hnone] at hquantum
      cases hquantum
  refine ⟨_, (ScullcDev.dataAt_setDataAt _ h.item_le _ _).trans (if_pos hitem), ?_⟩
  rw [PtrArray.fetch_eq_ok, hsPos, ← hmem]
  exact ⟨h.index, Function.update_self ..⟩

theorem FindsQuantum.fill_of_ne {t : WriteTarget}
    (h : WriteFinds m dev quantum qset count pos t dev₁) (hfound : FindsQuantum dev loc mem)
    (hne : ¬ (toUInt32 loc.item = t.item ∧ loc.sPos = t.sPos)) (bytes : List Cell) :
    FindsQuantum (t.fill dev₁ bytes) loc mem := by
  obtain ⟨data, hdata, hfetch⟩ := id hfound
  by_cases hitem : toUInt32 loc.item = t.item
  · have hsPos : loc.sPos ≠ t.sPos := fun hsPos => hne ⟨hitem, hsPos⟩
    obtain ⟨hindex, -⟩ := PtrArray.fetch_eq_ok.mp hfetch
    obtain ⟨hquantum, hlow⟩ := hfound.quantumAt
    rw [hitem] at hdata hquantum
    refine ⟨_, (ScullcDev.dataAt_setDataAt _ h.item_le _ _).trans (if_pos hitem), ?_⟩
    have hj : loc.sPos.toNat ≠ t.sPos.toNat := by
      have := h.index.1
      omega
    rw [PtrArray.fetch_eq_ok, PtrArray.store_len, h.data_len hdata]
    refine ⟨hindex, ?_⟩
    rw [show (t.data.store t.sPos _).slots loc.sPos.toNat = t.data.slots loc.sPos.toNat from
      Function.update_of_ne hj .., h.slots_eq, if_neg hj, hquantum]
  · refine ⟨data, ?_, hfetch⟩
    rw [WriteTarget.fill, ScullcDev.dataAt_setDataAt _ h.item_le, if_neg hitem, h.dataAt,
      if_neg hitem, hdata]

/-- Storing `bytes` from `loc` on leaves every byte of the file that can be read at the
value that it has. -/
def KeepsBytes (m : Module) (dev : ScullcDev) (loc : Loc) (bytes : List Cell) : Prop :=
  ∀ (p : ℤ) b loc' c, 0 ≤ p → p < dev.size → ReadsByte m dev p b →
    locate dev.quantum dev.qset p = .ok loc' → toUInt32 loc'.item = toUInt32 loc.item →
    loc'.sPos = loc.sPos → loc.qPos ≤ loc'.qPos →
    bytes[(loc'.qPos - loc.qPos).toNat]? = some c → c = b

/-- The copy is complete, or what it stores before it fails is there already. A copy
that would leave its object ends the run instead. -/
def CopyHarmless (env : Env) (m : Module) (dev : ScullcDev) (buf : List UInt8) (loc : Loc)
    (aio : Bool) : Prop :=
  let n := clampCount dev.quantum loc.qPos buf.length
  Inside m.objectSize loc.qPos n → aio = true ∨ env.copied n < n →
    KeepsBytes m dev loc (copiedIn env buf n aio)

/-- What a write that returns an error leaves behind. The mutex is free again unless it
was never taken. -/
structure LeavesIntact (m : Module) (dev : ScullcDev) (pos : ℤ) (t : Transfer) : Prop where
  pos_eq : t.pos = pos
  size_eq : t.dev.size = dev.size
  bytes : ∀ (p : ℤ) b, 0 ≤ p → p < dev.size → ReadsByte m dev p b → ReadsByte m t.dev p b
  released : t.dev.mutex = false ∨ (t.ret = -ERESTARTSYS ∧ t.dev = dev)

structure FailsCleanly (env : Env) (m : Module) (heap : Heap) (dev : ScullcDev)
    (buf : List UInt8) (pos : ℤ) (aio : Bool) : Prop where
  noNull : scullcDoWrite env m heap dev buf buf.length pos aio ≠ .error .nullDereference
  intact : ∀ t, scullcDoWrite env m heap dev buf buf.length pos aio = .ok t → t.ret < 0 →
    LeavesIntact m dev pos t

theorem scullcDoWrite_of_not_signalled (hsignal : env.signalled = false) :
    scullcDoWrite env m heap dev buf count pos aio =
      writeLocked env m heap dev.lock dev.quantum dev.qset buf count pos aio := by
  rw [scullcDoWrite, hsignal]
  rfl

/-- The walk along the list is where a null pointer is dereferenced. -/
theorem doWrite_ne_null_iff (hsignal : env.signalled = false) (buf : List UInt8) (count : ℕ)
    (aio : Bool) :
    scullcDoWrite env m heap dev buf count pos aio ≠ .error .nullDereference ↔
      ∀ loc, locate dev.quantum dev.qset pos = .ok loc →
        Grants env heap (toUInt32 loc.item - dev.next.length) := by
  rw [scullcDoWrite_of_not_signalled hsignal]
  constructor
  · intro hne loc hloc
    rw [← scullcFollow_returns_iff]
    cases hfollow : scullcFollow env (toUInt32 loc.item) dev.next heap with
    | ok r => exact ⟨r, rfl⟩
    | error f =>
        obtain rfl := scullcFollow_error hfollow
        refine absurd ?_ hne
        simp only [writeLocked, writeTarget, hloc, ok_bind, ScullcDev.lock_next, hfollow,
          error_bind]
  · intro hgrants hnull
    have htarget := writeLocked_error hnull
    cases hloc : locate dev.quantum dev.qset pos with
    | error f =>
        obtain rfl := locate_error hloc
        rw [writeTarget, hloc, error_bind] at htarget
        cases htarget
    | ok loc =>
        have hfollow := scullcFollow_returns_iff.mpr (hgrants loc hloc)
        rw [← ScullcDev.lock_next] at hfollow
        obtain ⟨r, hfollow⟩ := hfollow
        rcases writeTarget_error_after hloc hfollow htarget with h | h | h <;> cases h

theorem WriteStops.readsByte (hstops : WriteStops dev.lock dev.qset dev₁)
    (hkeeps : ∀ i data, dev.lock.dataAt i = some data → dev₁.dataAt i = some data)
    (hread : ReadsByte m dev p b) : ReadsByte m dev₁.unlock p b := by
  obtain ⟨loc, mem, hstored⟩ := readsByte_iff.mp hread
  obtain ⟨data, hdata, hfetch⟩ := hstored.found
  refine readsByte_iff.mpr ⟨loc, mem, hstored.of_found hstops.size hstops.quantum hstops.qset
    (FindsQuantum.unlock ⟨data, hkeeps _ _ ?_, hfetch⟩) hstored.cell⟩
  rwa [ScullcDev.lock_dataAt]

/-- A byte that the copy does not reach, or that it stores as it was, reads the same. -/
theorem WriteFinds.readsByte {t : WriteTarget} {item : ℤ}
    (h : WriteFinds m dev.lock dev.quantum dev.qset buf.length pos t dev₁)
    (hitem : t.item = toUInt32 item) {bytes : List Cell} (hlow : bytes = [] ∨ 0 ≤ t.qPos)
    (hkeeps : KeepsBytes m dev ⟨item, t.sPos, t.qPos⟩ bytes) (hp : 0 ≤ p) (hsize : p < dev.size)
    (hread : ReadsByte m dev p b) : ReadsByte m (t.fill dev₁ bytes).unlock p b := by
  obtain ⟨loc, mem, hstored⟩ := readsByte_iff.mp hread
  have hfound : FindsQuantum dev.lock loc mem := hstored.found.lock
  have hsame : ∀ {mem'}, FindsQuantum (t.fill dev₁ bytes) loc mem' →
      mem'.cells loc.qPos.toNat = b → ReadsByte m (t.fill dev₁ bytes).unlock p b :=
    fun hfound' hcell => readsByte_iff.mpr ⟨loc, _, hstored.of_found
      (by simp [WriteTarget.fill, h.size]) (by simp [WriteTarget.fill, h.quantum])
      (by simp [WriteTarget.fill, h.qset]) hfound'.unlock hcell⟩
  by_cases hslot : toUInt32 loc.item = t.item ∧ loc.sPos = t.sPos
  · refine hsame (hfound.fill h hslot.1 hslot.2 bytes) ?_
    change overwrite mem.cells t.qPos.toNat bytes loc.qPos.toNat = b
    have hcell := hstored.cell
    have hinside := hstored.inside.1
    rcases hlow with rfl | hlow
    · rwa [overwrite_nil]
    by_cases hbefore : loc.qPos < t.qPos
    · have hlt : loc.qPos.toNat < t.qPos.toNat := by omega
      rwa [overwrite_of_lt _ _ hlt]
    have hafter : t.qPos ≤ loc.qPos := Int.not_lt.mp hbefore
    have hindex : loc.qPos.toNat - t.qPos.toNat = (loc.qPos - t.qPos).toNat := by omega
    rw [overwrite_of_le _ _ (Int.toNat_le_toNat hafter), hindex]
    cases hbyte : bytes[(loc.qPos - t.qPos).toNat]? with
    | none => exact hcell
    | some c =>
        exact hkeeps p b loc c hp hsize hread hstored.located (hslot.1.trans hitem) hslot.2
          hafter hbyte
  · exact hsame (hfound.fill_of_ne h hslot bytes) hstored.cell

/-- A copy that is not harmless shows in the file. -/
theorem WriteFinds.keepsBytes {t : WriteTarget} {item : ℤ}
    (h : WriteFinds m dev.lock dev.quantum dev.qset buf.length pos t dev₁)
    (hitem : t.item = toUInt32 item) {bytes : List Cell} (hlow : bytes = [] ∨ 0 ≤ t.qPos)
    (hreads : ∀ (p : ℤ) b, 0 ≤ p → p < dev.size → ReadsByte m dev p b →
      ReadsByte m (t.fill dev₁ bytes).unlock p b) :
    KeepsBytes m dev ⟨item, t.sPos, t.qPos⟩ bytes := by
  intro p b loc c hp hsize hread hloc hsame hsPos hafter hbyte
  obtain ⟨loc', mem, hstored⟩ := readsByte_iff.mp hread
  obtain rfl : loc = loc' := Except.ok.inj (hloc.symm.trans hstored.located)
  have hfill := (hstored.found.lock.fill h (hsame.trans hitem.symm) hsPos bytes).unlock
  obtain ⟨loc', mem', hstored'⟩ := readsByte_iff.mp (hreads p b hp hsize hread)
  have hloc' := hstored'.located
  simp only [WriteTarget.fill, ScullcDev.unlock_quantum, ScullcDev.unlock_qset,
    ScullcDev.setDataAt_quantum, ScullcDev.setDataAt_qset, h.quantum, h.qset,
    ScullcDev.lock_quantum, ScullcDev.lock_qset, hloc] at hloc'
  obtain rfl := Except.ok.inj hloc'
  obtain rfl := hfill.unique hstored'.found
  have hcell : overwrite mem.cells t.qPos.toNat bytes loc.qPos.toNat = b := hstored'.cell
  have hindex : loc.qPos.toNat - t.qPos.toNat = (loc.qPos - t.qPos).toNat := by
    rcases hlow with rfl | hlow
    · simp at hbyte
    · omega
  rw [overwrite_of_le _ _ (Int.toNat_le_toNat hafter), hindex, hbyte] at hcell
  exact hcell

theorem WriteFinds.copiedIn_low {t : WriteTarget}
    (h : WriteFinds m dev quantum qset count pos t dev₁) (env : Env) (buf : List UInt8)
    (aio : Bool) :
    copiedIn env buf t.count aio = [] ∨ 0 ≤ t.qPos := by
  rcases h.inside with hzero | ⟨hlow, -⟩
  · exact .inl (by simp [copiedIn, hzero])
  · exact .inr hlow

theorem writeCopy_ret_neg {t : WriteTarget}
    (hneg : (writeCopy env dev heap t buf pos aio).ret < 0) :
    (aio = true ∨ env.copied t.count < t.count) ∧
      writeCopy env dev heap t buf pos aio =
        ⟨-EFAULT, pos, [], (t.fill dev (copiedIn env buf t.count aio)).unlock, heap⟩ := by
  unfold writeCopy at hneg ⊢
  split at hneg
  · next hfails =>
      rw [if_pos hfails]
      exact ⟨hfails, rfl⟩
  · have hcount : (0 : ℤ) ≤ t.count := Int.natCast_nonneg _
    exact absurd hneg (Int.not_lt.mpr hcount)

theorem FailsCleanly.copyHarmless (h : FailsCleanly env m heap dev buf pos aio)
    (hsignal : env.signalled = false) (hloc : locate dev.quantum dev.qset pos = .ok loc) :
    CopyHarmless env m dev buf loc aio := by
  unfold CopyHarmless
  intro n hinside hfails p b loc' c hp hsize hread hloc' hsame hsPos hafter hbyte
  -- the byte that is hit shows that the quantum is there, so the call gets to the copy
  obtain ⟨loc₁, mem, hstored⟩ := readsByte_iff.mp hread
  obtain rfl : loc' = loc₁ := Except.ok.inj (hloc'.symm.trans hstored.located)
  have hfound : FindsQuantum dev.lock loc mem := by
    obtain ⟨data, hdata, hfetch⟩ := hstored.found.lock
    exact ⟨data, hsame ▸ hdata, hsPos ▸ hfetch⟩
  obtain ⟨t, dev₁, heap₁, htarget⟩ := writeTarget_of_found env heap hloc hfound hinside
  have hfinds := writeTarget_some htarget
  obtain ⟨item, hloc₁, hitem⟩ := hfinds.located
  obtain rfl := Except.ok.inj (hloc.symm.trans hloc₁)
  have hcount : t.count = n := hfinds.count_eq
  have hrun : scullcDoWrite env m heap dev buf buf.length pos aio = .ok
      ⟨-EFAULT, pos, [], (t.fill dev₁ (copiedIn env buf n aio)).unlock, heap₁⟩ := by
    rw [scullcDoWrite_of_not_signalled hsignal, writeLocked_of_some htarget, writeCopy, hcount,
      if_pos hfails]
  have hintact := h.intact _ hrun (show -EFAULT < 0 by decide)
  have hlow := hcount ▸ hfinds.copiedIn_low env buf aio
  exact hfinds.keepsBytes hitem hlow hintact.bytes p b loc' c hp hsize hread hloc' hsame hsPos
    hafter hbyte

/-- A write that gives up before the copy, or whose copy is harmless, leaves the file. -/
theorem leavesIntact_of_harmless (hsignal : env.signalled = false) {t : Transfer}
    (hharmless : ∀ loc, locate dev.quantum dev.qset pos = .ok loc →
      CopyHarmless env m dev buf loc aio)
    (ht : scullcDoWrite env m heap dev buf buf.length pos aio = .ok t) (hneg : t.ret < 0) :
    LeavesIntact m dev pos t := by
  rw [scullcDoWrite_of_not_signalled hsignal] at ht
  rcases writeLocked_ok ht with ⟨dev₁, heap₁, htarget, rfl⟩ | ⟨w, dev₁, heap₁, htarget, rfl⟩
  · have hstops := writeTarget_none htarget
    exact ⟨rfl, hstops.size, fun _ _ _ _ => hstops.readsByte fun _ _ =>
      writeTarget_none_keeps htarget, .inl rfl⟩
  · have hfinds := writeTarget_some htarget
    obtain ⟨item, hloc, hitem⟩ := hfinds.located
    obtain ⟨hfails, hcopy⟩ := writeCopy_ret_neg hneg
    rw [hcopy]
    have hkeeps : KeepsBytes m dev ⟨item, w.sPos, w.qPos⟩ (copiedIn env buf w.count aio) := by
      have hharmless := hharmless _ hloc
      simp only [CopyHarmless] at hharmless
      have hcount := hfinds.count_eq
      rw [← hcount] at hharmless
      exact hharmless hfinds.inside hfails
    have hlow := hfinds.copiedIn_low env buf aio
    refine ⟨rfl, ?_, fun p b hp hsize hread => ?_, .inl rfl⟩
    · simp [WriteTarget.fill, hfinds.size]
    · exact hfinds.readsByte hitem hlow hkeeps hp hsize hread

/-- A signal that comes before the mutex is taken ends the call at once. -/
theorem failsCleanly_of_signalled (hsignal : env.signalled = true) :
    FailsCleanly env m heap dev buf pos aio := by
  have hrun : scullcDoWrite env m heap dev buf buf.length pos aio =
      .ok ⟨-ERESTARTSYS, pos, [], dev, heap⟩ := by
    rw [scullcDoWrite, hsignal, if_pos rfl]
  constructor
  · intro hnull
    rw [hrun] at hnull
    cases hnull
  · intro t ht _
    obtain rfl := Except.ok.inj (hrun.symm.trans ht)
    exact ⟨rfl, rfl, fun _ _ _ _ hread => hread, .inr ⟨rfl, rfl⟩⟩

/-- A write fails cleanly exactly when a signal comes first, or when every list item that
it has to add is granted and the copy, should it fail, stores nothing new into the file. -/
theorem failsCleanly_iff (env : Env) (m : Module) (heap : Heap) (dev : ScullcDev)
    (buf : List UInt8) (pos : ℤ) (aio : Bool) :
    FailsCleanly env m heap dev buf pos aio ↔
      env.signalled = true ∨ ∀ loc, locate dev.quantum dev.qset pos = .ok loc →
        Grants env heap (toUInt32 loc.item - dev.next.length) ∧
          CopyHarmless env m dev buf loc aio := by
  cases hsignal : env.signalled with
  | true => exact iff_of_true (failsCleanly_of_signalled hsignal) (.inl rfl)
  | false =>
      simp only [Bool.false_eq_true, false_or, forall_and]
      rw [← doWrite_ne_null_iff hsignal buf buf.length aio]
      constructor
      · intro hclean
        exact ⟨hclean.noNull, fun loc hloc => hclean.copyHarmless hsignal hloc⟩
      · rintro ⟨hnull, hharmless⟩
        exact ⟨hnull, fun t => leavesIntact_of_harmless hsignal hharmless⟩

/-- The first write to a new device, behind its first list item, while nothing is granted. -/
theorem ungranted_fails : ¬ FailsCleanly ⟨false, fun _ => false, fun n => n⟩ Module.initial
    ⟨0, []⟩ .initial [7] 2000000 false := by
  intro hclean
  exact hclean.noNull rfl

end LddSamples.Scullc

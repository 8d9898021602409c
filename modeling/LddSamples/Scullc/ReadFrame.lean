import LddSamples.Scullc.SlabBounds

/-!
# What a read leaves alone

A read walks along the list with the allocating helper of the writers. It leaves the
device alone as long as the walk ends at an item that is there, which the test of the
position against the size secures everywhere but at the very end of the file.
-/

namespace LddSamples.Scullc

open Kernel CArith Outcome

/-- The call leaves the device and the allocator as they were, whatever the
environment decides. -/
def ReadsOnly (m : Module) (heap : Heap) (dev : ScullcDev) (count : ℕ) (pos : ℤ) (aio : Bool) :
    Prop :=
  ∀ env t, scullcDoRead env m heap dev count pos aio = .ok t → t.dev = dev ∧ t.heap = heap

/-- A read at `pos` is turned away by the size test, or finds its list item without
making one. -/
def StaysInList (dev : ScullcDev) (pos : ℤ) : Prop :=
  dev.size < toUInt64 pos ∨ toUInt32 (pos.tdiv (toInt32 (dev.quantum * dev.qset))) ≤ dev.next.length

section Device

variable {env : Env} {m : Module} {heap heap₁ : Heap} {dev dev₁ : ScullcDev}
  {quantum qset : ℤ} {count : ℕ} {pos : ℤ} {aio : Bool}

/-! ## One read -/

@[simp] theorem toUInt32_toInt32 (x : ℤ) : toUInt32 (toInt32 x) = toUInt32 x := by
  unfold toUInt32 toInt32
  omega

theorem readTarget_frame {r : Option (List Cell)} (hstays : StaysInList dev pos)
    (h : readTarget env m heap dev dev.quantum dev.qset count pos = .ok (r, dev₁, heap₁)) :
    dev₁ = dev ∧ heap₁ = heap := by
  unfold readTarget at h
  split at h
  · cases h
    exact ⟨rfl, rfl⟩
  · next hsize =>
      have hwalk := hstays.resolve_left hsize
      simp only [bind_eq_ok, Prod.exists] at h
      obtain ⟨loc, hloc, items, heap₂, hfollow, h⟩ := h
      obtain ⟨-, -, hitem, -, -⟩ := locate_ok hloc
      rw [hitem, toUInt32_toInt32, scullcFollow_of_le hwalk] at hfollow
      cases hfollow
      split at h
      · cases h
        exact ⟨rfl, rfl⟩
      · simp only [bind_eq_ok] at h
        obtain ⟨slot, -, h⟩ := h
        cases slot with
        | none =>
            cases h
            exact ⟨rfl, rfl⟩
        | some mem =>
            simp only [bind_eq_ok, require_eq_ok, Except.ok.injEq, Prod.mk.injEq] at h
            obtain ⟨_, -, -, rfl, rfl⟩ := h
            exact ⟨rfl, rfl⟩

/-- A walk past the end of the list lengthens it, and the read then finds a hole. -/
theorem readTarget_grows (m : Module) (heap : Heap) (dev : ScullcDev) (count : ℕ)
    (hstays : ¬ StaysInList dev pos) :
    ∃ dev₁ heap₁, readTarget Env.calm m heap dev dev.quantum dev.qset count pos =
      .ok (none, dev₁, heap₁) ∧ dev.next.length < dev₁.next.length := by
  unfold StaysInList at hstays
  push Not at hstays
  obtain ⟨hsize, hwalk⟩ := hstays
  have hitemsize : toInt32 (dev.quantum * dev.qset) ≠ 0 := by
    intro hzero
    rw [hzero, Int.tdiv_zero] at hwalk
    exact Nat.not_lt_zero _ hwalk
  have hquantum : dev.quantum ≠ 0 := by
    rintro hzero
    rw [hzero, zero_mul] at hitemsize
    exact hitemsize rfl
  obtain ⟨loc, hloc⟩ : ∃ loc, locate dev.quantum dev.qset pos = .ok loc :=
    ⟨_, by simp [locate, quot, rem, hitemsize, hquantum]; rfl⟩
  obtain ⟨-, -, hitem, -, -⟩ := locate_ok hloc
  obtain ⟨items, heap₁, hfollow⟩ := scullcFollow_calm (toUInt32 loc.item) dev.next heap
  have hlen := (scullcFollow_spec hfollow).1
  rw [← toUInt32_toInt32, ← hitem] at hwalk
  have hdata : dev.dataAt (toUInt32 loc.item) = none := by
    cases hn : toUInt32 loc.item with
    | zero => omega
    | succ n =>
        have hnone : dev.next[n]? = none := List.getElem?_eq_none (by omega)
        simp [ScullcDev.dataAt, hnone]
  refine ⟨{ dev with next := items }, heap₁, ?_, by dsimp only; omega⟩
  simp only [readTarget, if_neg (Nat.not_lt.mpr hsize), hloc, ok_bind, hfollow,
    (SameData.follow hfollow).dataAt, hdata]

theorem readsOnly_iff (m : Module) (heap : Heap) (hfree : dev.mutex = false) (count : ℕ) (pos : ℤ)
    (aio : Bool) : ReadsOnly m heap dev count pos aio ↔ StaysInList dev pos := by
  have hunlock : dev.lock.unlock = dev := by
    cases dev
    exact congrArg (ScullcDev.mk _ _ _ _ _ _) hfree.symm
  constructor
  · intro hreads
    by_contra hstays
    obtain ⟨dev₁, heap₁, htarget, hgrows⟩ := readTarget_grows m heap dev.lock count hstays
    obtain ⟨hdev, -⟩ := hreads Env.calm _ (readLocked_of_none htarget)
    have hlen := congrArg (fun d => d.next.length) hdev
    simp only [ScullcDev.unlock_next] at hlen
    rw [ScullcDev.lock_next] at hgrows
    omega
  · intro hstays env t h
    have hlock : StaysInList dev.lock pos := hstays
    unfold scullcDoRead at h
    split at h
    · cases h
      exact ⟨rfl, rfl⟩
    · rcases readLocked_ok h with ⟨dev₁, heap₁, htarget, rfl⟩ | ⟨bytes, dev₁, heap₁, htarget, rfl⟩
      · obtain ⟨rfl, rfl⟩ := readTarget_frame hlock htarget
        exact ⟨hunlock, rfl⟩
      · obtain ⟨rfl, rfl⟩ := readTarget_frame hlock htarget
        refine ⟨(readCopy_dev ..).trans hunlock, ?_⟩
        unfold readCopy
        split_ifs <;> rfl

theorem scullcDoRead_mutex {t : Transfer} (hfree : dev.mutex = false)
    (h : scullcDoRead env m heap dev count pos aio = .ok t) : t.dev.mutex = false := by
  unfold scullcDoRead at h
  split at h
  · cases h
    exact hfree
  · rcases readLocked_ok h with ⟨dev₁, heap₁, -, rfl⟩ | ⟨bytes, dev₁, heap₁, -, rfl⟩
    · rfl
    · rw [readCopy_dev]
      rfl

theorem scullcDoWrite_mutex {buf : List UInt8} {t : Transfer} (hfree : dev.mutex = false)
    (h : scullcDoWrite env m heap dev buf count pos aio = .ok t) : t.dev.mutex = false := by
  unfold scullcDoWrite at h
  split at h
  · cases h
    exact hfree
  · rcases writeLocked_ok h with ⟨dev₁, heap₁, -, rfl⟩ | ⟨target, dev₁, heap₁, -, rfl⟩
    · rfl
    · unfold writeCopy
      dsimp only
      split_ifs <;> rfl

theorem scullcOpen_mutex {flags : ℕ} {ret : ℤ} (hfree : dev.mutex = false)
    (h : scullcOpen env m heap dev flags = .ok (ret, dev₁, heap₁)) : dev₁.mutex = false := by
  rcases scullcOpen_ok h with rfl | rfl | ⟨-, -, -, rfl⟩
  · exact hfree
  · rfl
  · rfl

/-! ## How far the list reaches -/

/-- The file ends no later than one list item after the last one that is there, and
within the items that an `int` can count. -/
def Reaches (dev : ScullcDev) : Prop :=
  ∃ q s : ℕ, Geometry q s ∧ dev.quantum = q ∧ dev.qset = s ∧
    dev.size ≤ (dev.next.length + 1) * (q * s) ∧ dev.size ≤ 2147483648 * (q * s)

/-- The read that lengthens the list is the one at the end of a file that fills its
last list item. -/
theorem Reaches.staysInList_iff (h : Reaches dev) (hlow : 0 ≤ pos)
    (hhigh : pos < 9223372036854775808) :
    StaysInList dev pos ↔
      ¬ (pos = dev.size ∧ pos = (dev.next.length + 1) * (dev.quantum * dev.qset)) := by
  obtain ⟨q, s, hg, hquantum, hqset, hsize, hcount⟩ := h
  obtain ⟨p, rfl⟩ := Int.eq_ofNat_of_zero_le hlow
  have hpos : 0 < q * s := Nat.mul_pos hg.quantum_pos hg.qset_pos
  have hitemsize : toInt32 ((q : ℤ) * s) = ((q * s : ℕ) : ℤ) := by
    rw [toInt32_of_mem _ hg.fits]
    · push_cast
      rfl
    · have : (0 : ℤ) ≤ q * s := by positivity
      omega
  have hroom : ((dev.next.length : ℤ) + 1) * ((q : ℤ) * s) =
      (((dev.next.length + 1) * (q * s) : ℕ) : ℤ) := by
    push_cast
    rfl
  rw [hquantum, hqset, hroom, Nat.cast_inj, Nat.cast_inj, StaysInList, hquantum, hqset, hitemsize,
    ← Int.ofNat_tdiv, toUInt64_natCast (by omega)]
  by_cases hin : dev.size < p
  · exact iff_of_true (.inl hin) fun h => by omega
  have hquot : p / (q * s) ≤ 2147483648 :=
    (Nat.div_le_div_right ((Nat.not_lt.mp hin).trans hcount)).trans
      (Nat.mul_div_cancel _ hpos).le
  have hwalk : p / (q * s) ≤ dev.next.length ↔ p < (dev.next.length + 1) * (q * s) := by
    rw [← Nat.div_lt_iff_lt_mul hpos, Nat.lt_succ_iff]
  rw [or_iff_right hin, toUInt32_natCast (by omega), hwalk]
  generalize (dev.next.length + 1) * (q * s) = room at hsize ⊢
  omega

theorem reaches_of_empty {q s : ℕ} (hg : Geometry q s) (hquantum : dev.quantum = q)
    (hqset : dev.qset = s) (hsize : dev.size = 0) : Reaches dev := by
  refine ⟨q, s, hg, hquantum, hqset, ?_, ?_⟩
  · rw [hsize]
    exact Nat.zero_le _
  · rw [hsize]
    exact Nat.zero_le _

theorem Reaches.of_longer (h : Reaches dev) (hquantum : dev₁.quantum = dev.quantum)
    (hqset : dev₁.qset = dev.qset) (hsize : dev₁.size = dev.size)
    (hlonger : dev.next.length ≤ dev₁.next.length) : Reaches dev₁ := by
  obtain ⟨q, s, hg, hq, hs, hreach, hcount⟩ := h
  refine ⟨q, s, hg, hquantum.trans hq, hqset.trans hs, ?_, hsize ▸ hcount⟩
  rw [hsize]
  exact hreach.trans (Nat.mul_le_mul_right _ (Nat.succ_le_succ hlonger))

theorem readTarget_longer {r : Option (List Cell)}
    (h : readTarget env m heap dev quantum qset count pos = .ok (r, dev₁, heap₁)) :
    dev.next.length ≤ dev₁.next.length := by
  unfold readTarget at h
  split at h
  · cases h
    exact le_rfl
  · simp only [bind_eq_ok, Prod.exists] at h
    obtain ⟨loc, hloc, items, heap₂, hfollow, h⟩ := h
    have hlonger : dev.next.length ≤ items.length := by
      rw [(scullcFollow_spec hfollow).1]
      exact le_max_right _ _
    split at h
    · cases h
      exact hlonger
    · simp only [bind_eq_ok] at h
      obtain ⟨slot, -, h⟩ := h
      cases slot with
      | none =>
          cases h
          exact hlonger
      | some mem =>
          simp only [bind_eq_ok, require_eq_ok, Except.ok.injEq, Prod.mk.injEq] at h
          obtain ⟨_, -, -, rfl, rfl⟩ := h
          exact hlonger

theorem Reaches.read {t : Transfer} (hdev : Reaches dev)
    (h : scullcDoRead env m heap dev count pos aio = .ok t) : Reaches t.dev := by
  have hsame := scullcDoRead_sameData h
  refine hdev.of_longer hsame.quantum hsame.qset hsame.size ?_
  unfold scullcDoRead at h
  split at h
  · cases h
    exact le_rfl
  · rcases readLocked_ok h with ⟨dev₁, heap₁, htarget, rfl⟩ | ⟨bytes, dev₁, heap₁, htarget, rfl⟩
    · have hlonger := readTarget_longer htarget
      exact hlonger
    · have hlonger := readTarget_longer htarget
      rw [readCopy_dev]
      exact hlonger

theorem writeTarget_next {r : Option WriteTarget}
    (h : writeTarget env m heap dev quantum qset count pos = .ok (r, dev₁, heap₁)) :
    ∃ loc, locate quantum qset pos = .ok loc ∧
      dev₁.next.length = max (toUInt32 loc.item) dev.next.length := by
  simp only [writeTarget, bind_eq_ok, Prod.exists] at h
  obtain ⟨loc, hloc, items, heap₂, hfollow, h⟩ := h
  refine ⟨loc, hloc, ?_⟩
  rw [← (scullcFollow_spec hfollow).1]
  split at h
  · cases h
    rfl
  · simp only [bind_eq_ok, Prod.exists] at h
    obtain ⟨slot, -, got, heap₄, -, h⟩ := h
    cases got with
    | none =>
        cases h
        simp
    | some mem =>
        simp only [bind_eq_ok, require_eq_ok, Except.ok.injEq, Prod.mk.injEq] at h
        obtain ⟨_, -, -, rfl, rfl⟩ := h
        simp

theorem writeCopy_next (env : Env) (dev : ScullcDev) (heap : Heap) (t : WriteTarget)
    (buf : List UInt8) (pos : ℤ) (aio : Bool) :
    (writeCopy env dev heap t buf pos aio).dev.next.length = dev.next.length := by
  unfold writeCopy ScullcDev.extend WriteTarget.fill
  dsimp only
  split_ifs <;> simp

theorem writeCopy_size_le (env : Env) (dev : ScullcDev) (heap : Heap) (t : WriteTarget)
    (buf : List UInt8) (pos : ℤ) (aio : Bool) :
    (writeCopy env dev heap t buf pos aio).dev.size ≤
      max dev.size (toUInt64 (toInt64 (pos + t.count))) := by
  unfold writeCopy ScullcDev.extend WriteTarget.fill
  dsimp only
  split_ifs <;> simp

/-- The end of the quantum of a position lies in the list item of the position. -/
theorem quantum_end_le {q s : ℕ} (hg : Geometry q s) {p n : ℕ} (hn : n ≤ q - p % q) :
    p + n ≤ (p / (q * s) + 1) * (q * s) := by
  have hmod := Nat.mod_lt p hg.quantum_pos
  have hslot : p / q + 1 ≤ s * (p / q / s + 1) := Nat.lt_mul_div_succ _ hg.qset_pos
  calc p + n ≤ q * (p / q) + p % q + (q - p % q) := by
        have := Nat.div_add_mod p q
        omega
    _ = q * (p / q + 1) := by
        rw [mul_add, mul_one]
        omega
    _ ≤ q * (s * (p / q / s + 1)) := Nat.mul_le_mul_left q hslot
    _ = (p / (q * s) + 1) * (q * s) := by
        rw [Nat.div_div_eq_div_mul]
        ring

theorem Reaches.write {buf : List UInt8} {t : Transfer} (hdev : Reaches dev) (hlow : 0 ≤ pos)
    (hitem : pos / (dev.quantum * dev.qset) < 2147483648)
    (h : scullcDoWrite env m heap dev buf count pos aio = .ok t) : Reaches t.dev := by
  unfold scullcDoWrite at h
  split at h
  · cases h
    exact hdev
  rcases writeLocked_ok h with ⟨dev₁, heap₁, htarget, rfl⟩ | ⟨target, dev₁, heap₁, htarget, rfl⟩
  · obtain ⟨loc, -, hnext⟩ := writeTarget_next htarget
    have hstop := writeTarget_none htarget
    refine hdev.of_longer hstop.quantum hstop.qset hstop.size ?_
    show dev.next.length ≤ dev₁.next.length
    rw [hnext]
    exact le_max_right _ _
  obtain ⟨loc, hloc, hnext⟩ := writeTarget_next htarget
  have hfinds := writeTarget_some htarget
  have hafter := writeCopy_dev env dev₁ heap₁ target buf pos aio
  have hsize := writeCopy_size_le env dev₁ heap₁ target buf pos aio
  obtain ⟨q, s, hg, hquantum, hqset, hreach, hcount⟩ := hdev
  obtain ⟨p, rfl⟩ := Int.eq_ofNat_of_zero_le hlow
  have hpos : 0 < q * s := Nat.mul_pos hg.quantum_pos hg.qset_pos
  have hfits : q * s ≤ 2147483647 := by
    have hint := hg.fits
    unfold INT_MAX at hint
    exact_mod_cast hint
  have hplace : p / (q * s) < 2147483648 := by
    rw [hquantum, hqset] at hitem
    exact_mod_cast hitem
  obtain ⟨item, hlocated, -⟩ := hfinds.located
  rw [hquantum, hqset, locate_eq hg] at hloc hlocated
  obtain rfl := Except.ok.inj hloc
  have hqPos : target.qPos = ((p % q : ℕ) : ℤ) := (congrArg Loc.qPos (Except.ok.inj hlocated)).symm
  have hn : target.count ≤ q - p % q := by
    rw [hfinds.count_eq, hquantum, hqPos, clampCount_eq hg.quantum_pos hg.quantum_le]
    exact min_le_right _ _
  have hend := quantum_end_le hg hn
  have hlen : p / (q * s) ≤ dev₁.next.length := by
    rw [hnext, toUInt32_item (by rw [Nat.div_div_eq_div_mul]; unfold INT_MAX; omega),
      Nat.div_div_eq_div_mul]
    exact le_max_left _ _
  have hgrown : dev.next.length ≤ dev₁.next.length := by
    rw [hnext]
    exact le_max_right _ _
  have hlast : p + target.count ≤ 2147483648 * (q * s) :=
    hend.trans (Nat.mul_le_mul_right _ hplace)
  have hbytes : toUInt64 (toInt64 ((p : ℤ) + target.count)) = p + target.count := by
    rw [toInt64_of_mem (by omega) (by omega)]
    exact_mod_cast toUInt64_natCast (n := p + target.count) (by omega)
  rw [hbytes, hfinds.size] at hsize
  refine ⟨q, s, hg, hafter.quantum.trans ?_, hafter.qset.trans ?_, ?_, ?_⟩
  · rw [WriteTarget.fill, ScullcDev.setDataAt_quantum, hfinds.quantum]
    exact hquantum
  · rw [WriteTarget.fill, ScullcDev.setDataAt_qset, hfinds.qset]
    exact hqset
  · rw [writeCopy_next]
    refine hsize.trans (max_le ?_ ?_)
    · exact hreach.trans (Nat.mul_le_mul_right _ (Nat.succ_le_succ hgrown))
    · exact hend.trans (Nat.mul_le_mul_right _ (Nat.succ_le_succ hlen))
  · exact hsize.trans (max_le hcount hlast)

end Device

namespace System

variable {sys sys' : System} {call : Call}

/-- What the operations of a call keep of each device, the call keeps. -/
theorem step_keeps {P : ScullcDev → Prop} (hP : ∀ i, P (sys.devs i))
    (hopen : ∀ i fd flags env ret dev heap, call = .openDev fd i flags env →
      scullcOpen env sys.module sys.heap (sys.devs i) flags = .ok (ret, dev, heap) → P dev)
    (hread : ∀ i env count pos aio t,
      scullcDoRead env sys.module sys.heap (sys.devs i) count pos aio = .ok t → P t.dev)
    (hwrite : ∀ fd env buf given aio file t, call = .write fd env buf given aio →
      sys.files fd = some file → 0 ≤ given.getD file.fPos →
      scullcDoWrite env sys.module sys.heap (sys.devs file.dev) buf buf.length
        (given.getD file.fPos) aio = .ok t → P t.dev)
    (h : sys.step call = .ok sys') (i : Fin SCULLC_DEVS) : P (sys'.devs i) := by
  have hset : ∀ j dev, P dev → P (Function.update sys.devs j dev i) := by
    intro j dev hdev
    by_cases hij : i = j
    · rw [hij, Function.update_self]
      exact hdev
    · rw [Function.update_of_ne hij]
      exact hP i
  cases call with
  | ioctl cmd arg u =>
      cases h
      exact hP i
  | openDev fd j flags env =>
      simp only [step, bind_eq_ok, Prod.exists, Except.ok.injEq] at h
      obtain ⟨ret, dev, heap, hrun, rfl⟩ := h
      exact hset j dev (hopen j fd flags env ret dev heap rfl hrun)
  | llseek fd off whence =>
      simp only [step] at h
      split at h <;> (cases h; exact hP i)
  | read fd env count given aio =>
      simp only [step] at h
      rcases transfer_ok h with rfl | ⟨file, t, -, -, hrun, -, hdevs, -⟩
      · exact hP i
      · rw [hdevs]
        exact hset _ _ (hread _ _ _ _ _ _ hrun)
  | write fd env buf given aio =>
      simp only [step] at h
      rcases transfer_ok h with rfl | ⟨file, t, hfile, hpos, hrun, -, hdevs, -⟩
      · exact hP i
      · rw [hdevs]
        exact hset _ _ (hwrite fd env buf given aio file t rfl hfile hpos hrun)

theorem step_free (hfree : ∀ i, (sys.devs i).mutex = false) (h : sys.step call = .ok sys')
    (i : Fin SCULLC_DEVS) : (sys'.devs i).mutex = false := by
  apply step_keeps (P := fun dev => dev.mutex = false) hfree ?_ ?_ ?_ h
  · rintro i _ _ _ _ _ _ - hopen
    exact scullcOpen_mutex (hfree i) hopen
  · intro i _ _ _ _ _ hread
    exact scullcDoRead_mutex (hfree i) hread
  · rintro _ _ _ _ _ file _ - - - hwrite
    exact scullcDoWrite_mutex (hfree file.dev) hwrite

/-- In every state a run can reach, a read of a device changes nothing in it and
allocates nothing exactly when it stays in the list. -/
theorem readsOnly_iff_of_exec {calls : List Call} (h : Runs.exec step initial calls = .ok sys)
    (i : Fin SCULLC_DEVS) (count : ℕ) (pos : ℤ) (aio : Bool) :
    ReadsOnly sys.module sys.heap (sys.devs i) count pos aio ↔ StaysInList (sys.devs i) pos := by
  have hfree : ∀ i, (sys.devs i).mutex = false :=
    Runs.exec_keeps (I := fun sys : System => ∀ i, (sys.devs i).mutex = false)
      (A := fun _ => True) (fun _ _ _ hfree _ hstep => step_free hfree hstep) (fun _ => rfl)
      (fun _ _ => trivial) h
  exact readsOnly_iff sys.module sys.heap (hfree i) count pos aio

/-- With the default geometry: one byte at the last place of the first list item. -/
def lastByte : List Call :=
  [.openDev 0 0 O_WRONLY Env.calm, .llseek 0 1999999 0, .write 0 Env.calm [7] none false]

theorem readsOnly_iff_lastByte : ∃ sys, Runs.exec step initial lastByte = .ok sys ∧
    (ReadsOnly sys.module sys.heap (sys.devs 0) 1 1999999 false ↔
      StaysInList (sys.devs 0) 1999999) :=
  ⟨_, rfl, readsOnly_iff_of_exec (show Runs.exec step initial lastByte = .ok _ from rfl) 0 1
    1999999 false⟩

/-- The read of 0 bytes at the end of that file makes a list item. -/
theorem read_at_end_grows : ∃ sys, Runs.exec step initial lastByte = .ok sys ∧
    (sys.devs 0).size = 2000000 ∧ (sys.devs 0).next.length = 0 ∧
    (∃ t, scullcDoRead Env.calm sys.module sys.heap (sys.devs 0) 1 2000000 false = .ok t ∧
      t.ret = 0 ∧ t.dev.next.length = 1 ∧ t.heap.requests = sys.heap.requests + 1) ∧
    ¬ ReadsOnly sys.module sys.heap (sys.devs 0) 1 2000000 false := by
  refine ⟨_, rfl, rfl, rfl, ⟨_, rfl, rfl, rfl, rfl⟩, fun hreads => ?_⟩
  have hlen := congrArg (fun dev => dev.next.length) (hreads Env.calm _ rfl).1
  exact absurd hlen (by decide)

/-! ## Where that is -/

/-- Trims find variables that the driver can work with, and writes stay within the
list items that an `int` can count. -/
def KeepsReach (sys : System) (call : Call) : Prop :=
  (∀ i, sys.Trims call i → sys.module.Good) ∧ ∀ i pos, sys.Writes call i pos →
    pos / ((sys.devs i).quantum * (sys.devs i).qset) < 2147483648

theorem step_reaches (hreach : ∀ i, Reaches (sys.devs i)) (hcall : sys.KeepsReach call)
    (h : sys.step call = .ok sys') (i : Fin SCULLC_DEVS) : Reaches (sys'.devs i) := by
  apply step_keeps hreach ?_ ?_ ?_ h
  · rintro i fd flags env ret dev heap rfl hopen
    rcases scullcOpen_ok hopen with rfl | rfl | ⟨hflags, hsignal, hvmas, rfl⟩
    · exact hreach i
    · exact (hreach i).of_longer rfl rfl rfl le_rfl
    · obtain ⟨q, s, hg, hq, hs⟩ :=
        (hcall.1 i ⟨fd, flags, env, rfl, hflags, hsignal, hvmas⟩).geometry
      exact reaches_of_empty hg hq hs rfl
  · intro i _ _ _ _ _ hread
    exact (hreach i).read hread
  · rintro fd env buf given aio file t rfl hfile hpos hwrite
    cases hsignal : env.signalled with
    | true =>
        simp only [scullcDoWrite, hsignal, if_true, Except.ok.injEq] at hwrite
        rw [← hwrite]
        exact hreach file.dev
    | false =>
        have hplace := hcall.2 file.dev (given.getD file.fPos)
          ⟨fd, env, buf, given, aio, file, rfl, hsignal, hfile, rfl, rfl, hpos⟩
        exact (hreach file.dev).write hpos hplace hwrite

/-- In a run with good variables and list indices that fit, the one read that
changes the device is that at the end of a file that fills its last list item. -/
theorem readsOnly_iff_not_at_end {calls : List Call}
    (hcalls : Runs.Along step KeepsReach initial calls)
    (h : Runs.exec step initial calls = .ok sys) (i : Fin SCULLC_DEVS) (count : ℕ) {pos : ℤ}
    (hlow : 0 ≤ pos) (hhigh : pos < 9223372036854775808) (aio : Bool) :
    ReadsOnly sys.module sys.heap (sys.devs i) count pos aio ↔
      ¬ (pos = (sys.devs i).size ∧
        pos = ((sys.devs i).next.length + 1) * ((sys.devs i).quantum * (sys.devs i).qset)) := by
  have hinitial : ∀ i, Reaches (initial.devs i) := fun _ =>
    reaches_of_empty (q := 4000) (s := 500) ⟨by decide, by decide, by decide⟩ rfl rfl rfl
  have halways := Runs.always_of_along (I := fun sys : System => ∀ i, Reaches (sys.devs i))
    (fun _ hreach => hreach) (fun _ _ _ hreach hcall hstep => step_reaches hreach hcall hstep)
    hinitial hcalls
  have hreach := Runs.always_iff.mp halways calls (List.prefix_refl _) sys h i
  rw [readsOnly_iff_of_exec h, hreach.staysInList_iff hlow hhigh]

end System

end LddSamples.Scullc

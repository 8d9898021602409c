import LddSamples.Scullc.Transfer

/-!
# What the transfer routines do

One statement for each routine, in terms of the quantum that each pair of list
item and array index holds. The later modules cite these and never unfold a
routine.
-/

namespace LddSamples.Scullc

open Kernel CArith Outcome ByteMap

variable {env : Env} {m : Module} {heap heap₁ : Heap} {dev dev₁ : ScullcDev}
  {quantum qset : ℤ} {count : ℕ} {pos : ℤ} {aio : Bool}

/-! ## Positions -/

/-- The geometry that a transfer works with: positive, with a product that fits
an `int`. -/
structure Geometry (q s : ℕ) : Prop where
  quantum_pos : 0 < q
  qset_pos : 0 < s
  fits : (q * s : ℤ) ≤ INT_MAX

theorem Geometry.quantum_le {q s : ℕ} (hg : Geometry q s) : (q : ℤ) ≤ INT_MAX := by
  have hle : (q : ℤ) ≤ (q : ℤ) * s := by
    have hs : (1 : ℤ) ≤ s := by exact_mod_cast hg.qset_pos
    nlinarith [Int.natCast_nonneg q]
  exact hle.trans hg.fits

/-- Piece `p / q` of the file is slot `p / q % s` of list item `p / q / s`. -/
theorem locate_eq {q s : ℕ} (hg : Geometry q s) (p : ℕ) :
    locate q s p =
      .ok ⟨toInt32 ((p / q / s : ℕ) : ℤ), ((p / q % s : ℕ) : ℤ), ((p % q : ℕ) : ℤ)⟩ := by
  have hitem : toInt32 ((q : ℤ) * s) = ((q * s : ℕ) : ℤ) := by
    have hlow : (0 : ℤ) ≤ (q : ℤ) * s := by positivity
    rw [toInt32_of_mem (by omega) hg.fits]
    push_cast
    rfl
  have hpos : 0 < q * s := Nat.mul_pos hg.quantum_pos hg.qset_pos
  simp only [locate, hitem, quot_natCast hpos, rem_natCast hpos, quot_natCast hg.quantum_pos,
    rem_natCast hg.quantum_pos, ofOption_some, ok_bind, Nat.mod_mul_right_div_self,
    Nat.mod_mul_right_mod, Nat.div_div_eq_div_mul]

theorem toUInt32_item {k : ℕ} (hk : (k : ℤ) ≤ INT_MAX) : toUInt32 (toInt32 (k : ℤ)) = k := by
  rw [toInt32_of_mem (by omega) hk]
  have := toUInt32_of_mem (x := (k : ℤ)) (by omega) hk
  omega

theorem clampCount_of_mem {qPos : ℤ} (hlow : 0 ≤ qPos) (hhigh : qPos < quantum)
    (hint : quantum ≤ INT_MAX) (n : ℕ) :
    clampCount quantum qPos n = min n (quantum - qPos).toNat := by
  have hmax := INT_MAX_eq
  have hleft : toUInt64 (toInt32 (quantum - qPos)) = (quantum - qPos).toNat := by
    rw [toInt32_of_mem (by omega) (by omega)]
    have := toUInt64_of_mem (x := quantum - qPos) (by omega) (by omega)
    omega
  rw [clampCount, hleft]
  split <;> omega

theorem clampCount_eq {q : ℕ} (hq : 0 < q) (hfits : (q : ℤ) ≤ INT_MAX) (p n : ℕ) :
    clampCount q ((p % q : ℕ) : ℤ) n = min n (q - p % q) := by
  have hmod := Nat.mod_lt p hq
  rw [clampCount_of_mem (by omega) (by omega) hfits]
  omega

theorem inside_clampCount {qPos : ℤ} {size : ℕ} (hlow : 0 ≤ qPos) (hhigh : qPos < quantum)
    (hint : quantum ≤ INT_MAX) (hsize : quantum ≤ size) (n : ℕ) :
    Inside size qPos (clampCount quantum qPos n) := by
  rw [clampCount_of_mem hlow hhigh hint]
  refine .inr ⟨hlow, ?_⟩
  omega

theorem clampSize_of_mem {size n : ℕ} (hlow : 0 ≤ pos) (hin : pos ≤ size)
    (hsize : size < 18446744073709551616) (hn : pos + n < 18446744073709551616) :
    clampSize size pos n = min n (size - pos).toNat := by
  have hpos := toUInt64_of_mem hlow (by omega)
  have hsub := toUInt64_of_mem (x := size - pos) (by omega) (by omega)
  rw [clampSize, Nat.mod_eq_of_lt (by omega)]
  split <;> omega

theorem locate_ok {loc : Loc} (h : locate quantum qset pos = .ok loc) :
    toInt32 (quantum * qset) ≠ 0 ∧ quantum ≠ 0 ∧
      loc.item = toInt32 (pos.tdiv (toInt32 (quantum * qset))) ∧
      loc.sPos = (pos.tmod (toInt32 (quantum * qset))).tdiv quantum ∧
      loc.qPos = (pos.tmod (toInt32 (quantum * qset))).tmod quantum := by
  simp only [locate, bind_eq_ok, ofOption_eq_ok, quot_eq_some_iff, rem_eq_some_iff,
    Except.ok.injEq] at h
  obtain ⟨item, ⟨hsize, rfl⟩, rest, ⟨-, rfl⟩, sPos, ⟨hquantum, rfl⟩, qPos, ⟨-, rfl⟩, rfl⟩ := h
  exact ⟨hsize, hquantum, rfl, rfl, rfl⟩

theorem locate_qPos {loc : Loc} (h : locate quantum qset pos = .ok loc) (hpos : 0 ≤ pos)
    (hquantum : 0 < quantum) : 0 ≤ loc.qPos ∧ loc.qPos < quantum := by
  obtain ⟨-, -, -, -, hqPos⟩ := locate_ok h
  rw [hqPos]
  exact ⟨Int.tmod_nonneg _ (Int.tmod_nonneg _ hpos), Int.tmod_lt_of_pos _ hquantum⟩

/-- With positive divisors a position that is not negative is split into a list
index cut down to an `int` and two offsets that are not negative. -/
theorem locate_of_pos (hsize : 0 < toInt32 (quantum * qset)) (hquantum : 0 < quantum)
    (hpos : 0 ≤ pos) :
    ∃ loc, locate quantum qset pos = .ok loc ∧
      loc.item = toInt32 (pos / toInt32 (quantum * qset)) ∧ 0 ≤ loc.sPos ∧ 0 ≤ loc.qPos := by
  have hrest := Int.tmod_nonneg (toInt32 (quantum * qset)) hpos
  refine ⟨_, by simp [locate, quot, rem, hsize.ne', hquantum.ne']; rfl, ?_,
    Int.tdiv_nonneg hrest hquantum.le, Int.tmod_nonneg _ hrest⟩
  rw [Int.tdiv_eq_ediv_of_nonneg hpos]

/-! ## Reading -/

/-- The state in which a read stops without having reached a byte. -/
def Hole (dev : ScullcDev) (quantum qset pos : ℤ) : Prop :=
  ∃ loc, locate quantum qset pos = .ok loc ∧
    (dev.dataAt (toUInt32 loc.item) = none ∨
      ∃ data, dev.dataAt (toUInt32 loc.item) = some data ∧ data.fetch loc.sPos = .ok none)

structure ReadFinds (m : Module) (dev : ScullcDev) (quantum qset : ℤ) (count : ℕ) (pos : ℤ)
    (bytes : List Cell) : Prop where
  inFile : toUInt64 pos ≤ dev.size
  target : ∃ loc data mem, locate quantum qset pos = .ok loc ∧
    dev.dataAt (toUInt32 loc.item) = some data ∧ data.fetch loc.sPos = .ok (some mem) ∧
    Inside m.objectSize loc.qPos (clampCount quantum loc.qPos (clampSize dev.size pos count)) ∧
    bytes = window mem.cells loc.qPos.toNat
      (clampCount quantum loc.qPos (clampSize dev.size pos count))

/-- Nothing but the list of items may differ, and every item keeps its data. -/
structure SameData (dev dev₁ : ScullcDev) : Prop where
  dataAt : ∀ i, dev₁.dataAt i = dev.dataAt i
  size : dev₁.size = dev.size
  quantum : dev₁.quantum = dev.quantum
  qset : dev₁.qset = dev.qset
  vmas : dev₁.vmas = dev.vmas

theorem SameData.refl (dev : ScullcDev) : SameData dev dev := ⟨fun _ => rfl, rfl, rfl, rfl, rfl⟩

theorem SameData.quantumAt {dev dev₁ : ScullcDev} (h : SameData dev dev₁) (i j : ℕ) :
    dev₁.quantumAt i j = dev.quantumAt i j := by
  rw [ScullcDev.quantumAt, ScullcDev.quantumAt, h.dataAt]

theorem SameData.lock (dev : ScullcDev) : SameData dev dev.lock :=
  ⟨dev.lock_dataAt, rfl, rfl, rfl, rfl⟩

theorem SameData.unlock {dev dev₁ : ScullcDev} (h : SameData dev dev₁) : SameData dev dev₁.unlock :=
  ⟨fun i => (dev₁.unlock_dataAt i).trans (h.dataAt i), h.size, h.quantum, h.qset, h.vmas⟩

theorem SameData.trans {dev dev₁ dev₂ : ScullcDev} (h : SameData dev dev₁)
    (h' : SameData dev₁ dev₂) : SameData dev dev₂ :=
  ⟨fun i => (h'.dataAt i).trans (h.dataAt i), h'.size.trans h.size, h'.quantum.trans h.quantum,
    h'.qset.trans h.qset, h'.vmas.trans h.vmas⟩

theorem SameData.follow {n : ℕ} {items : List ListItem}
    (h : scullcFollow env n dev.next heap = .ok (items, heap₁)) :
    SameData dev { dev with next := items } :=
  ⟨dataAt_follow h, rfl, rfl, rfl, rfl⟩

theorem readTarget_some {bytes : List Cell}
    (h : readTarget env m heap dev quantum qset count pos = .ok (some bytes, dev₁, heap₁)) :
    SameData dev dev₁ ∧ ReadFinds m dev quantum qset count pos bytes := by
  unfold readTarget at h
  split at h
  · cases h
  · next hsize =>
      simp only [bind_eq_ok, Prod.exists] at h
      obtain ⟨loc, hloc, items, heap₂, hfollow, h⟩ := h
      have hsame := SameData.follow hfollow
      split at h
      · cases h
      · next data hdata =>
          rw [hsame.dataAt] at hdata
          simp only [bind_eq_ok] at h
          obtain ⟨slot, hfetch, h⟩ := h
          cases slot with
          | none => cases h
          | some mem =>
              simp only [bind_eq_ok, require_eq_ok, Except.ok.injEq, Prod.mk.injEq,
                Option.some.injEq] at h
              obtain ⟨_, hinside, rfl, rfl, rfl⟩ := h
              exact ⟨hsame, Nat.not_lt.mp hsize, loc, data, mem, hloc, hdata, hfetch, hinside, rfl⟩

theorem readTarget_none
    (h : readTarget env m heap dev quantum qset count pos = .ok (none, dev₁, heap₁)) :
    SameData dev dev₁ ∧ (dev.size < toUInt64 pos ∨ Hole dev quantum qset pos) := by
  unfold readTarget at h
  split at h
  · next hsize =>
      cases h
      exact ⟨.refl dev, .inl hsize⟩
  · simp only [bind_eq_ok, Prod.exists] at h
    obtain ⟨loc, hloc, items, heap₂, hfollow, h⟩ := h
    have hsame := SameData.follow hfollow
    split at h
    · next hdata =>
        cases h
        rw [hsame.dataAt] at hdata
        exact ⟨hsame, .inr ⟨loc, hloc, .inl hdata⟩⟩
    · next data hdata =>
        rw [hsame.dataAt] at hdata
        simp only [bind_eq_ok] at h
        obtain ⟨slot, hfetch, h⟩ := h
        cases slot with
        | none =>
            cases h
            exact ⟨hsame, .inr ⟨loc, hloc, .inr ⟨data, hdata, hfetch⟩⟩⟩
        | some mem => simp at h

theorem readTarget_calm_none (heap : Heap) (count : ℕ)
    (h : dev.size < toUInt64 pos ∨ Hole dev quantum qset pos) :
    ∃ dev₁ heap₁, readTarget Env.calm m heap dev quantum qset count pos =
      .ok (none, dev₁, heap₁) ∧ SameData dev dev₁ := by
  by_cases hsize : dev.size < toUInt64 pos
  · exact ⟨dev, heap, if_pos hsize, .refl dev⟩
  obtain ⟨loc, hloc, hhole⟩ := h.resolve_left hsize
  obtain ⟨items, heap₁, hfollow⟩ := scullcFollow_calm (toUInt32 loc.item) dev.next heap
  have hsame := SameData.follow hfollow
  refine ⟨_, heap₁, ?_, hsame⟩
  simp only [readTarget, if_neg hsize, hloc, ok_bind, hfollow, hsame.dataAt]
  rcases hhole with hdata | ⟨data, hdata, hfetch⟩
  · rw [hdata]
  · simp only [hdata, hfetch, ok_bind]

/-- A read that finds its quantum finds it in the list as it is. -/
theorem readTarget_of_finds (env : Env) (heap : Heap) {bytes : List Cell}
    (h : ReadFinds m dev quantum qset count pos bytes) :
    readTarget env m heap dev quantum qset count pos = .ok (some bytes, dev, heap) := by
  obtain ⟨hsize, loc, data, mem, hloc, hdata, hfetch, hinside, rfl⟩ := h
  simp only [readTarget, if_neg (Nat.not_lt.mpr hsize), hloc, ok_bind,
    scullcFollow_of_le (ScullcDev.le_of_dataAt hdata), hdata, hfetch, require_of hinside]

theorem readLocked_of_none
    (h : readTarget env m heap dev quantum qset count pos = .ok (none, dev₁, heap₁)) :
    readLocked env m heap dev quantum qset count pos aio =
      .ok ⟨0, pos, [], dev₁.unlock, heap₁⟩ := by
  simp only [readLocked, h, ok_bind]

theorem readLocked_of_some {bytes : List Cell}
    (h : readTarget env m heap dev quantum qset count pos = .ok (some bytes, dev₁, heap₁)) :
    readLocked env m heap dev quantum qset count pos aio =
      .ok (readCopy env dev₁ heap₁ bytes pos aio) := by
  simp only [readLocked, h, ok_bind]

theorem readLocked_ok {t : Transfer}
    (h : readLocked env m heap dev quantum qset count pos aio = .ok t) :
    (∃ dev₁ heap₁, readTarget env m heap dev quantum qset count pos = .ok (none, dev₁, heap₁) ∧
        t = ⟨0, pos, [], dev₁.unlock, heap₁⟩) ∨
      ∃ bytes dev₁ heap₁,
        readTarget env m heap dev quantum qset count pos = .ok (some bytes, dev₁, heap₁) ∧
        t = readCopy env dev₁ heap₁ bytes pos aio := by
  simp only [readLocked, bind_eq_ok] at h
  obtain ⟨⟨found, dev₁, heap₁⟩, htarget, h⟩ := h
  cases found with
  | none =>
      cases h
      exact .inl ⟨dev₁, heap₁, htarget, rfl⟩
  | some bytes =>
      cases h
      exact .inr ⟨bytes, dev₁, heap₁, htarget, rfl⟩

theorem readLocked_error {f : Fault}
    (h : readLocked env m heap dev quantum qset count pos aio = .error f) :
    readTarget env m heap dev quantum qset count pos = .error f := by
  simp only [readLocked, bind_eq_error] at h
  rcases h with h | ⟨⟨found, dev₁, heap₁⟩, -, h⟩
  · exact h
  · cases found <;> cases h

@[simp] theorem readCopy_dev (env : Env) (dev : ScullcDev) (heap : Heap) (bytes : List Cell)
    (pos : ℤ) (aio : Bool) : (readCopy env dev heap bytes pos aio).dev = dev.unlock := by
  unfold readCopy
  split_ifs <;> rfl

theorem readCopy_calm (dev : ScullcDev) (heap : Heap) (bytes : List Cell) (pos : ℤ) :
    readCopy Env.calm dev heap bytes pos false =
      ⟨bytes.length, toInt64 (pos + bytes.length), bytes, dev.unlock, heap⟩ := by
  simp [readCopy]

/-! ## Writing -/

/-- What a write that reaches its copy has found or made. -/
structure WriteFinds (m : Module) (dev : ScullcDev) (quantum qset : ℤ) (count : ℕ) (pos : ℤ)
    (t : WriteTarget) (dev₁ : ScullcDev) : Prop where
  located : ∃ item, locate quantum qset pos = .ok ⟨item, t.sPos, t.qPos⟩ ∧
    t.item = toUInt32 item
  count_eq : t.count = clampCount quantum t.qPos count
  inside : Inside m.objectSize t.qPos t.count
  index : 0 ≤ t.sPos ∧ t.sPos < t.data.len
  len_eq : t.data.len = dev.lenAt t.item qset
  slots_eq : ∀ j, t.data.slots j = if j = t.sPos.toNat then some t.mem else dev.quantumAt t.item j
  mem_eq : dev.quantumAt t.item t.sPos.toNat = some t.mem ∨
    (dev.quantumAt t.item t.sPos.toNat = none ∧ toUInt64 m.scullcQuantum ≤ m.objectSize ∧
      t.mem.cells = fun i => if i < toUInt64 m.scullcQuantum then some 0 else none)
  item_le : t.item ≤ dev₁.next.length
  dataAt : ∀ i, dev₁.dataAt i = if i = t.item then some t.data else dev.dataAt i
  size : dev₁.size = dev.size
  quantum : dev₁.quantum = dev.quantum
  qset : dev₁.qset = dev.qset
  vmas : dev₁.vmas = dev.vmas

/-- What a write that gives up for want of memory leaves behind: at most one new
array, which is empty. -/
structure WriteStops (dev : ScullcDev) (qset : ℤ) (dev₁ : ScullcDev) : Prop where
  dataAt : ∀ i data, dev₁.dataAt i = some data →
    dev.dataAt i = some data ∨ (data.len = qset ∧ data.slots = fun _ => none)
  size : dev₁.size = dev.size
  quantum : dev₁.quantum = dev.quantum
  qset : dev₁.qset = dev.qset
  vmas : dev₁.vmas = dev.vmas

theorem ensureData_some {found : Option PtrArray} {data : PtrArray}
    (h : ensureData env heap qset found = (some data, heap₁)) :
    found = some data ∨
      (found = none ∧ data.len = qset ∧ data.slots = fun _ => none) := by
  cases found with
  | some old =>
      simp only [ensureData, Prod.mk.injEq, Option.some.injEq] at h
      exact .inl (congrArg some h.1)
  | none =>
      refine .inr ⟨rfl, ?_⟩
      simp only [ensureData] at h
      cases halloc : kmalloc env heap with
      | mk got heap₂ =>
          rw [halloc] at h
          cases got with
          | none => simp at h
          | some addr =>
              simp only at h
              split at h
              · simp at h
              · next hqset =>
                  simp only [Prod.mk.injEq, Option.some.injEq] at h
                  obtain ⟨rfl, -⟩ := h
                  exact ⟨Int.toNat_of_nonneg (Int.not_lt.mp hqset), rfl⟩

theorem ensureQuantum_some {slot : Option Quantum} {mem : Quantum}
    (h : ensureQuantum env m heap slot = .ok (some mem, heap₁)) :
    slot = some mem ∨ (slot = none ∧ toUInt64 m.scullcQuantum ≤ m.objectSize ∧
      mem.cells = fun i => if i < toUInt64 m.scullcQuantum then some 0 else none) := by
  cases slot with
  | some old =>
      simp only [ensureQuantum, Except.ok.injEq, Prod.mk.injEq, Option.some.injEq] at h
      exact .inl (congrArg some h.1)
  | none =>
      refine .inr ⟨rfl, ?_⟩
      simp only [ensureQuantum] at h
      cases halloc : kmalloc env heap with
      | mk got heap₂ =>
          rw [halloc] at h
          cases got with
          | none => simp at h
          | some addr =>
              simp only [bind_eq_ok, require_eq_ok, Except.ok.injEq, Prod.mk.injEq,
                Option.some.injEq] at h
              obtain ⟨_, hroom, rfl, -⟩ := h
              exact ⟨hroom, rfl⟩

theorem writeTarget_some {t : WriteTarget}
    (h : writeTarget env m heap dev quantum qset count pos = .ok (some t, dev₁, heap₁)) :
    WriteFinds m dev quantum qset count pos t dev₁ := by
  simp only [writeTarget, bind_eq_ok, Prod.exists] at h
  obtain ⟨loc, hloc, items, heap₂, hfollow, h⟩ := h
  have hsame := SameData.follow hfollow
  have hlen := (scullcFollow_spec hfollow).1
  generalize hn : toUInt32 loc.item = n at *
  split at h
  · cases h
  · next found heap₃ hensure =>
      rw [hsame.dataAt] at hensure
      simp only [bind_eq_ok, Prod.exists] at h
      obtain ⟨slot, hfetch, got, heap₄, hquantum, h⟩ := h
      cases got with
      | none => cases h
      | some mem =>
          simp only [bind_eq_ok, require_eq_ok, Except.ok.injEq, Prod.mk.injEq,
            Option.some.injEq] at h
          obtain ⟨_, hinside, rfl, rfl, rfl⟩ := h
          obtain ⟨hindex, hslot⟩ := PtrArray.fetch_eq_ok.mp hfetch
          have hitem : n ≤ items.length := by omega
          have hold : ∀ j, found.slots j = dev.quantumAt n j := by
            intro j
            rcases ensureData_some hensure with hdata | ⟨hdata, -, hslots⟩
            · simp [ScullcDev.quantumAt, hdata]
            · simp [ScullcDev.quantumAt, hdata, hslots]
          refine
            { located := ⟨loc.item, hloc, hn.symm⟩
              count_eq := rfl
              inside := hinside
              index := hindex
              len_eq := ?_
              slots_eq := ?_
              mem_eq := ?_
              item_le := by simpa using hitem
              dataAt := ?_
              size := by simp
              quantum := by simp
              qset := by simp
              vmas := by simp }
          · rcases ensureData_some hensure with hdata | ⟨hdata, hnew, -⟩
            · simp [ScullcDev.lenAt, hdata]
            · simp [ScullcDev.lenAt, hdata, hnew]
          · intro j
            by_cases hj : j = loc.sPos.toNat
            · simp [PtrArray.store, hj]
            · simp [PtrArray.store, hj, hold]
          · rcases ensureQuantum_some hquantum with hmem | ⟨hmem, hroom, hcells⟩
            · exact .inl ((hold _).symm.trans (hslot.trans hmem))
            · exact .inr ⟨(hold _).symm.trans (hslot.trans hmem), hroom, hcells⟩
          · intro i
            rw [ScullcDev.dataAt_setDataAt _ (by simpa using hitem),
              ScullcDev.dataAt_setDataAt _ (by simpa using hitem)]
            by_cases hi : i = n
            · simp [hi]
            · simp [hi, hsame.dataAt]

theorem writeTarget_none
    (h : writeTarget env m heap dev quantum qset count pos = .ok (none, dev₁, heap₁)) :
    WriteStops dev qset dev₁ := by
  simp only [writeTarget, bind_eq_ok, Prod.exists] at h
  obtain ⟨loc, -, items, heap₂, hfollow, h⟩ := h
  have hsame := SameData.follow hfollow
  have hlen := (scullcFollow_spec hfollow).1
  split at h
  · cases h
    refine ⟨fun i data hdata => .inl ?_, rfl, rfl, rfl, rfl⟩
    rwa [hsame.dataAt] at hdata
  · next found heap₃ hensure =>
      rw [hsame.dataAt] at hensure
      simp only [bind_eq_ok, Prod.exists] at h
      obtain ⟨slot, -, got, heap₄, -, h⟩ := h
      cases got with
      | some mem => simp at h
      | none =>
          cases h
          refine ⟨fun i data hdata => ?_, by simp, by simp, by simp, by simp⟩
          rw [ScullcDev.dataAt_setDataAt _ (by simp; omega), hsame.dataAt] at hdata
          split at hdata
          · next hi =>
              obtain rfl := Option.some.inj hdata
              rw [hi]
              rcases ensureData_some hensure with hold | ⟨-, hnew⟩
              · exact .inl hold
              · exact .inr hnew
          · exact .inl hdata

theorem writeTarget_calm (heap : Heap) {item sPos qPos : ℤ}
    (hloc : locate quantum qset pos = .ok ⟨item, sPos, qPos⟩) (hqset : 0 ≤ qset)
    (hindex : 0 ≤ sPos ∧ sPos < dev.lenAt (toUInt32 item) qset)
    (hroom : toUInt64 m.scullcQuantum ≤ m.objectSize)
    (hinside : Inside m.objectSize qPos (clampCount quantum qPos count)) :
    ∃ t dev₁ heap₁, writeTarget Env.calm m heap dev quantum qset count pos =
      .ok (some t, dev₁, heap₁) := by
  obtain ⟨items, heap₁, hfollow⟩ := scullcFollow_calm (toUInt32 item) dev.next heap
  have hsame := SameData.follow hfollow
  obtain ⟨data, heap₂, hensure, hlen⟩ : ∃ data heap₂,
      ensureData Env.calm heap₁ qset (dev.dataAt (toUInt32 item)) = (some data, heap₂) ∧
        data.len = dev.lenAt (toUInt32 item) qset := by
    cases hdata : dev.dataAt (toUInt32 item) with
    | some data => exact ⟨data, heap₁, rfl, by simp [ScullcDev.lenAt, hdata]⟩
    | none =>
        exact ⟨⟨heap₁.requests, qset.toNat, fun _ => none⟩,
          { heap₁ with requests := heap₁.requests + 1 },
          by simp [ensureData, Int.not_lt.mpr hqset], by simp [ScullcDev.lenAt, hdata, hqset]⟩
  obtain ⟨mem, heap₃, hquantum⟩ : ∃ mem heap₃,
      ensureQuantum Env.calm m heap₂ (data.slots sPos.toNat) = .ok (some mem, heap₃) := by
    cases hslot : data.slots sPos.toNat with
    | some mem => exact ⟨mem, heap₂, rfl⟩
    | none =>
        exact ⟨⟨heap₂.requests, fun i => if i < toUInt64 m.scullcQuantum then some 0 else none⟩,
          { heap₂ with requests := heap₂.requests + 1 },
          by simp [ensureQuantum, require_of hroom]⟩
  have hfetch : data.fetch sPos = .ok (data.slots sPos.toNat) :=
    PtrArray.fetch_eq_ok.mpr ⟨by rw [hlen]; exact hindex, rfl⟩
  exact ⟨_, _, _, by
    simp only [writeTarget, hloc, ok_bind, hfollow, hsame.dataAt, hensure, hfetch, hquantum,
      require_of hinside]; rfl⟩

theorem writeLocked_of_some {buf : List UInt8} {t : WriteTarget}
    (h : writeTarget env m heap dev quantum qset count pos = .ok (some t, dev₁, heap₁)) :
    writeLocked env m heap dev quantum qset buf count pos aio =
      .ok (writeCopy env dev₁ heap₁ t buf pos aio) := by
  simp only [writeLocked, h, ok_bind]

theorem writeLocked_ok {buf : List UInt8} {r : Transfer}
    (h : writeLocked env m heap dev quantum qset buf count pos aio = .ok r) :
    (∃ dev₁ heap₁, writeTarget env m heap dev quantum qset count pos = .ok (none, dev₁, heap₁) ∧
        r = ⟨-ENOMEM, pos, [], dev₁.unlock, heap₁⟩) ∨
      ∃ t dev₁ heap₁,
        writeTarget env m heap dev quantum qset count pos = .ok (some t, dev₁, heap₁) ∧
        r = writeCopy env dev₁ heap₁ t buf pos aio := by
  simp only [writeLocked, bind_eq_ok] at h
  obtain ⟨⟨found, dev₁, heap₁⟩, htarget, h⟩ := h
  cases found with
  | none =>
      cases h
      exact .inl ⟨dev₁, heap₁, htarget, rfl⟩
  | some t =>
      cases h
      exact .inr ⟨t, dev₁, heap₁, htarget, rfl⟩

theorem writeLocked_error {buf : List UInt8} {f : Fault}
    (h : writeLocked env m heap dev quantum qset buf count pos aio = .error f) :
    writeTarget env m heap dev quantum qset count pos = .error f := by
  simp only [writeLocked, bind_eq_error] at h
  rcases h with h | ⟨⟨found, dev₁, heap₁⟩, -, h⟩
  · exact h
  · cases found <;> cases h

theorem writeCopy_calm (dev : ScullcDev) (heap : Heap) (t : WriteTarget) (buf : List UInt8)
    (pos : ℤ) :
    writeCopy Env.calm dev heap t buf pos false =
      ⟨t.count, toInt64 (pos + t.count), [],
        ((t.fill dev ((buf.take t.count).map some)).extend (toInt64 (pos + t.count))).unlock,
        heap⟩ := by
  simp [writeCopy, copiedIn]

theorem WriteFinds.quantumAt_fill {t : WriteTarget}
    (h : WriteFinds m dev quantum qset count pos t dev₁) (bytes : List Cell) (i j : ℕ) :
    (t.fill dev₁ bytes).quantumAt i j =
      if i = t.item ∧ j = t.sPos.toNat then
        some { t.mem with cells := overwrite t.mem.cells t.qPos.toNat bytes }
      else dev.quantumAt i j := by
  rw [ScullcDev.quantumAt, WriteTarget.fill, ScullcDev.dataAt_setDataAt _ h.item_le]
  by_cases hi : i = t.item
  · by_cases hj : j = t.sPos.toNat
    · simp [hi, hj, PtrArray.store]
    · simp [hi, hj, PtrArray.store, h.slots_eq]
  · simp [hi, h.dataAt, ScullcDev.quantumAt]

/-! ## Faults -/

theorem locate_error {f : Fault} (h : locate quantum qset pos = .error f) : f = .divideError := by
  simp only [locate, bind_eq_error, ofOption_eq_error] at h
  rcases h with ⟨-, h⟩ | ⟨_, -, ⟨-, h⟩ | ⟨_, -, ⟨-, h⟩ | ⟨_, -, ⟨-, h⟩ | ⟨_, -, h⟩⟩⟩⟩
  · exact h.symm
  · exact h.symm
  · exact h.symm
  · exact h.symm
  · cases h

theorem scullcFollow_error {n : ℕ} {items : List ListItem} {f : Fault}
    (h : scullcFollow env n items heap = .error f) : f = .nullDereference := by
  induction n generalizing items heap with
  | zero => cases h
  | succ n ih =>
      cases items with
      | cons item items =>
          simp only [scullcFollow, bind_eq_error] at h
          rcases h with h | ⟨_, -, h⟩
          · exact ih h
          · cases h
      | nil =>
          simp only [scullcFollow] at h
          cases halloc : kmalloc env heap with
          | mk got heap₁ =>
              rw [halloc] at h
              cases got with
              | none =>
                  cases h
                  rfl
              | some addr =>
                  simp only [bind_eq_error] at h
                  rcases h with h | ⟨_, -, h⟩
                  · exact ih h
                  · cases h

/-- The next `n` requests for memory are granted. -/
def Grants (env : Env) (heap : Heap) (n : ℕ) : Prop :=
  ∀ k, k < n → env.grants (heap.requests + k) = true

/-- The walk along the list goes through exactly when every list item that it has to
add is granted. -/
theorem scullcFollow_returns_iff {n : ℕ} {items : List ListItem} :
    (∃ r, scullcFollow env n items heap = .ok r) ↔ Grants env heap (n - items.length) := by
  induction n generalizing items heap with
  | zero => simp [scullcFollow, Grants]
  | succ n ih =>
      cases items with
      | cons item items =>
          rw [List.length_cons, Nat.add_sub_add_right, ← ih]
          simp only [scullcFollow]
          cases scullcFollow env n items heap <;> simp
      | nil =>
          cases hgrant : env.grants heap.requests with
          | false =>
              have halloc : kmalloc env heap =
                  (none, { heap with requests := heap.requests + 1 }) := by
                simp [kmalloc, hgrant]
              refine iff_of_false (by simp [scullcFollow, halloc]) fun hall => ?_
              have hfirst := hall 0 (Nat.succ_pos n)
              rw [Nat.add_zero, hgrant] at hfirst
              cases hfirst
          | true =>
              have halloc : kmalloc env heap =
                  (some heap.requests, { heap with requests := heap.requests + 1 }) := by
                simp [kmalloc, hgrant]
              have hshift : Grants env heap (n + 1) ↔
                  Grants env { heap with requests := heap.requests + 1 } n := by
                have hsucc : ∀ k, heap.requests + 1 + k = heap.requests + (k + 1) :=
                  fun k => by omega
                simp only [Grants, hsucc]
                constructor
                · intro hall k hk
                  exact hall (k + 1) (Nat.succ_lt_succ hk)
                · intro hall k hk
                  cases k with
                  | zero => exact hgrant
                  | succ k => exact hall k (Nat.lt_of_succ_lt_succ hk)
              have hnext : (∃ r, scullcFollow env n [] ⟨heap.requests + 1, heap.freed⟩ = .ok r) ↔
                  Grants env ⟨heap.requests + 1, heap.freed⟩ (n - 0) := ih
              rw [List.length_nil, Nat.sub_zero]
              rw [Nat.sub_zero] at hnext
              rw [hshift, ← hnext]
              simp only [scullcFollow, halloc]
              cases scullcFollow env n [] { heap with requests := heap.requests + 1 } <;> simp

theorem PtrArray.fetch_eq_error {data : PtrArray} {s : ℤ} {f : Fault} :
    data.fetch s = .error f ↔ ¬ (0 ≤ s ∧ s < data.len) ∧ f = .indexOutOfBounds := by
  simp only [fetch, bind_eq_error, require_eq_error]
  constructor
  · rintro (⟨hout, rfl⟩ | ⟨_, -, h⟩)
    · exact ⟨hout, rfl⟩
    · cases h
  · rintro ⟨hout, rfl⟩
    exact .inl ⟨hout, rfl⟩

theorem readTarget_error {f : Fault}
    (h : readTarget env m heap dev quantum qset count pos = .error f) :
    toUInt64 pos ≤ dev.size ∧
    (f = .divideError ∨ f = .nullDereference ∨
      ∃ loc data, locate quantum qset pos = .ok loc ∧
        dev.dataAt (toUInt32 loc.item) = some data ∧
        ((f = .indexOutOfBounds ∧ ¬ (0 ≤ loc.sPos ∧ loc.sPos < data.len)) ∨
          ∃ mem, data.fetch loc.sPos = .ok (some mem) ∧ f = .copyOutOfBounds ∧
            ¬ Inside m.objectSize loc.qPos
              (clampCount quantum loc.qPos (clampSize dev.size pos count)))) := by
  unfold readTarget at h
  split at h
  · cases h
  · next hsize =>
      refine ⟨Nat.not_lt.mp hsize, ?_⟩
      simp only [bind_eq_error, Prod.exists] at h
      rcases h with h | ⟨loc, hloc, h | ⟨items, heap₂, hfollow, h⟩⟩
      · exact .inl (locate_error h)
      · exact .inr (.inl (scullcFollow_error h))
      refine .inr (.inr ⟨loc, ?_⟩)
      split at h
      · cases h
      · next data hdata =>
          rw [(SameData.follow hfollow).dataAt] at hdata
          refine ⟨data, hloc, hdata, ?_⟩
          simp only [bind_eq_error] at h
          rcases h with h | ⟨slot, hfetch, h⟩
          · exact .inl (PtrArray.fetch_eq_error.mp h).symm
          cases slot with
          | none => cases h
          | some mem =>
              simp only [bind_eq_error, require_eq_error] at h
              rcases h with ⟨hout, rfl⟩ | ⟨_, -, h⟩
              · exact .inr ⟨mem, hfetch, rfl, hout⟩
              · cases h

theorem writeTarget_error {f : Fault}
    (h : writeTarget env m heap dev quantum qset count pos = .error f) :
    f = .divideError ∨ f = .nullDereference ∨
      ∃ loc, locate quantum qset pos = .ok loc ∧
        ((f = .indexOutOfBounds ∧
            ¬ (0 ≤ loc.sPos ∧ loc.sPos < dev.lenAt (toUInt32 loc.item) qset)) ∨
          (f = .memsetOutOfBounds ∧ ¬ toUInt64 m.scullcQuantum ≤ m.objectSize ∧
            dev.quantumAt (toUInt32 loc.item) loc.sPos.toNat = none) ∨
          (f = .copyOutOfBounds ∧
            ¬ Inside m.objectSize loc.qPos (clampCount quantum loc.qPos count) ∧
            (dev.quantumAt (toUInt32 loc.item) loc.sPos.toNat = none →
              toUInt64 m.scullcQuantum ≤ m.objectSize))) := by
  simp only [writeTarget, bind_eq_error, Prod.exists] at h
  rcases h with h | ⟨loc, hloc, h | ⟨items, heap₂, hfollow, h⟩⟩
  · exact .inl (locate_error h)
  · exact .inr (.inl (scullcFollow_error h))
  refine .inr (.inr ⟨loc, hloc, ?_⟩)
  split at h
  · cases h
  · next found heap₃ hensure =>
      rw [(SameData.follow hfollow).dataAt] at hensure
      have hold : found.len = dev.lenAt (toUInt32 loc.item) qset ∧
          ∀ j, found.slots j = dev.quantumAt (toUInt32 loc.item) j := by
        rcases ensureData_some hensure with hdata | ⟨hdata, hlen, hslots⟩
        · simp [ScullcDev.lenAt, ScullcDev.quantumAt, hdata]
        · simp [ScullcDev.lenAt, ScullcDev.quantumAt, hdata, hlen, hslots]
      simp only [bind_eq_error, Prod.exists] at h
      rcases h with h | ⟨slot, hfetch, h | ⟨got, heap₄, hquantum, h⟩⟩
      · obtain ⟨hout, rfl⟩ := PtrArray.fetch_eq_error.mp h
        exact .inl ⟨rfl, by rwa [← hold.1]⟩
      · have hslot := (PtrArray.fetch_eq_ok.mp hfetch).2
        cases slot with
        | some mem => cases h
        | none =>
            rw [hold.2] at hslot
            simp only [ensureQuantum] at h
            split at h
            · cases h
            · simp only [bind_eq_error, require_eq_error] at h
              rcases h with ⟨hroom, rfl⟩ | ⟨_, -, h⟩
              · exact .inr (.inl ⟨rfl, hroom, hslot⟩)
              · cases h
      cases got with
      | none => cases h
      | some mem =>
          simp only [bind_eq_error, require_eq_error] at h
          rcases h with ⟨hout, rfl⟩ | ⟨_, -, h⟩
          · refine .inr (.inr ⟨rfl, hout, fun hnone => ?_⟩)
            have hslot := (PtrArray.fetch_eq_ok.mp hfetch).2
            rcases ensureQuantum_some hquantum with hmem | ⟨-, hroom, -⟩
            · rw [hmem, hold.2, hnone] at hslot
              cases hslot
            · exact hroom
          · cases h

/-- Behind the walk along the list only the bounds of arrays and quanta are left to
be violated. -/
theorem readTarget_error_after {loc : Loc} {r : List ListItem × Heap} {f : Fault}
    (hloc : locate quantum qset pos = .ok loc)
    (hfollow : scullcFollow env (toUInt32 loc.item) dev.next heap = .ok r)
    (h : readTarget env m heap dev quantum qset count pos = .error f) :
    f = .indexOutOfBounds ∨ f = .copyOutOfBounds := by
  unfold readTarget at h
  split at h
  · cases h
  · simp only [hloc, ok_bind, hfollow] at h
    split at h
    · cases h
    · simp only [bind_eq_error] at h
      rcases h with h | ⟨slot, -, h⟩
      · exact .inl (PtrArray.fetch_eq_error.mp h).2
      · cases slot with
        | none => cases h
        | some mem =>
            simp only [bind_eq_error, require_eq_error] at h
            rcases h with ⟨-, rfl⟩ | ⟨_, -, h⟩
            · exact .inr rfl
            · cases h

theorem writeTarget_error_after {loc : Loc} {r : List ListItem × Heap} {f : Fault}
    (hloc : locate quantum qset pos = .ok loc)
    (hfollow : scullcFollow env (toUInt32 loc.item) dev.next heap = .ok r)
    (h : writeTarget env m heap dev quantum qset count pos = .error f) :
    f = .indexOutOfBounds ∨ f = .memsetOutOfBounds ∨ f = .copyOutOfBounds := by
  simp only [writeTarget, hloc, ok_bind, hfollow] at h
  split at h
  · cases h
  · simp only [bind_eq_error, Prod.exists] at h
    rcases h with h | ⟨slot, -, h | ⟨got, heap₄, -, h⟩⟩
    · exact .inl (PtrArray.fetch_eq_error.mp h).2
    · cases slot with
      | some mem => cases h
      | none =>
          simp only [ensureQuantum] at h
          split at h
          · cases h
          · simp only [bind_eq_error, require_eq_error] at h
            rcases h with ⟨-, rfl⟩ | ⟨_, -, h⟩
            · exact .inr (.inl rfl)
            · cases h
    · cases got with
      | none => cases h
      | some mem =>
          simp only [bind_eq_error, require_eq_error] at h
          rcases h with ⟨-, rfl⟩ | ⟨_, -, h⟩
          · exact .inr (.inr rfl)
          · cases h

end LddSamples.Scullc

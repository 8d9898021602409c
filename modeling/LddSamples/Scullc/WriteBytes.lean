import LddSamples.Scullc.WriteFailure

/-!
# The bytes that a write stores

A write stores the bytes that it is given from its position on, as many as there are up to
the end of the quantum, or none: a signal comes first, or the array or the quantum for them
is not granted.
-/

namespace LddSamples.Scullc

open Kernel CArith Outcome ByteMap

variable {env : Env} {m : Module} {heap heap₁ : Heap} {dev dev₁ : ScullcDev}
  {quantum qset pos : ℤ} {count : ℕ} {loc : Loc} {buf : List UInt8}

def ScullcDev.byteAt (dev : ScullcDev) (i j k : ℕ) : Cell :=
  (dev.quantumAt i j).bind fun mem => mem.cells k

/-- The bytes are stored from `loc` on, and nothing else is: any other byte is as it was,
or one of the zeros of a new quantum. -/
structure Stores (dev dev₁ : ScullcDev) (loc : Loc) (bytes : List UInt8) : Prop where
  stored : ∀ k (hk : k < bytes.length),
    dev₁.byteAt (toUInt32 loc.item) loc.sPos.toNat (loc.qPos.toNat + k) = some bytes[k]
  others : ∀ i j k, ¬ (i = toUInt32 loc.item ∧ j = loc.sPos.toNat ∧ loc.qPos.toNat ≤ k ∧
      k < loc.qPos.toNat + bytes.length) →
    dev₁.byteAt i j k = dev.byteAt i j k ∨
      (dev.quantumAt i j = none ∧ dev₁.byteAt i j k = some 0)

@[simp] theorem ScullcDev.lock_quantumAt (dev : ScullcDev) (i j : ℕ) :
    dev.lock.quantumAt i j = dev.quantumAt i j := by
  simp [quantumAt]

@[simp] theorem ScullcDev.unlock_quantumAt (dev : ScullcDev) (i j : ℕ) :
    dev.unlock.quantumAt i j = dev.quantumAt i j := by
  simp [quantumAt]

theorem stores_nil (hsame : ∀ i j, dev₁.quantumAt i j = dev.quantumAt i j) :
    Stores dev dev₁ loc [] where
  stored k hk := absurd hk (Nat.not_lt_zero k)
  others i j k _ := .inl (by rw [ScullcDev.byteAt, hsame, ScullcDev.byteAt])

/-- Where fewer bytes are stored than asked for, the next one can only be there by chance. -/
theorem Stores.next_of_take {bytes : List UInt8} {k : ℕ} (h : Stores dev dev₁ loc (bytes.take k))
    (hall : Stores dev dev₁ loc bytes) (hk : k < bytes.length) :
    dev.byteAt (toUInt32 loc.item) loc.sPos.toNat (loc.qPos.toNat + k) = some bytes[k] ∨
      bytes[k] = 0 := by
  have hstored := hall.stored k hk
  have hlength : (bytes.take k).length = k := List.length_take_of_le hk.le
  rcases h.others (toUInt32 loc.item) loc.sPos.toNat (loc.qPos.toNat + k) (by omega) with
    hold | ⟨-, hzero⟩
  · exact .inl (hold.symm.trans hstored)
  · exact .inr (Option.some.inj (hstored.symm.trans hzero))

/-- The mutex has no part in the bytes. -/
theorem Stores.unlock {bytes : List UInt8} (h : Stores dev.lock dev₁ loc bytes) :
    Stores dev dev₁.unlock loc bytes where
  stored k hk := by
    simp only [ScullcDev.byteAt, ScullcDev.unlock_quantumAt]
    exact h.stored k hk
  others i j k hout := by
    have hothers := h.others i j k hout
    simp only [ScullcDev.byteAt, ScullcDev.lock_quantumAt] at hothers
    simp only [ScullcDev.byteAt, ScullcDev.unlock_quantumAt]
    exact hothers

/-! ## The copy -/

theorem WriteFinds.byteAt_fill {t : WriteTarget}
    (h : WriteFinds m dev quantum qset count pos t dev₁) (bytes : List Cell) (i j k : ℕ) :
    (t.fill dev₁ bytes).byteAt i j k =
      if i = t.item ∧ j = t.sPos.toNat then overwrite t.mem.cells t.qPos.toNat bytes k
      else dev.byteAt i j k := by
  rw [ScullcDev.byteAt, h.quantumAt_fill]
  split_ifs <;> rfl

theorem WriteFinds.stores {t : WriteTarget}
    (h : WriteFinds m dev quantum qset count pos t dev₁)
    (hloc : locate quantum qset pos = .ok loc) (bytes : List UInt8) :
    Stores dev (t.fill dev₁ (bytes.map some)) loc bytes := by
  obtain ⟨item, hlocated, hitem⟩ := h.located
  obtain rfl := Except.ok.inj (hloc.symm.trans hlocated)
  constructor
  · intro k hk
    have hmap : k < (bytes.map some).length := by simpa using hk
    rw [h.byteAt_fill, if_pos ⟨hitem.symm, rfl⟩, overwrite_of_mem _ _ hmap, List.getElem_map]
  · intro i j k hout
    rw [h.byteAt_fill]
    split_ifs with hslot
    · obtain ⟨rfl, rfl⟩ := hslot
      -- inside the quantum, before or behind the bytes
      have hkept : overwrite t.mem.cells t.qPos.toNat (bytes.map some) k = t.mem.cells k := by
        by_cases hlow : k < t.qPos.toNat
        · exact overwrite_of_lt _ _ hlow
        · have hhigh : t.qPos.toNat + bytes.length ≤ k :=
            Nat.le_of_not_lt fun hlt => hout ⟨hitem, rfl, Nat.le_of_not_lt hlow, hlt⟩
          exact overwrite_of_ge _ (by simpa using hhigh)
      rw [hkept]
      rcases h.mem_eq with hold | ⟨hnone, -, hcells⟩
      · exact .inl (by rw [ScullcDev.byteAt, hold]; rfl)
      · by_cases hclear : k < toUInt64 m.scullcQuantum
        · exact .inr ⟨hnone, by rw [hcells]; exact if_pos hclear⟩
        · exact .inl (by rw [ScullcDev.byteAt, hnone, hcells]; exact if_neg hclear)
    · exact .inl rfl

/-! ## Memory -/

/-- There is no array for the position, or no quantum in it, and one of the requests for
them is refused. The list items before it are asked for first, and a new array is empty. -/
def Refused (env : Env) (heap : Heap) (dev : ScullcDev) (qset : ℤ) (loc : Loc) : Prop :=
  let next := heap.requests + (toUInt32 loc.item - dev.next.length)
  match dev.dataAt (toUInt32 loc.item) with
  | none => env.grants next = false ∨ qset < 0 ∨ env.grants (next + 1) = false
  | some data => data.slots loc.sPos.toNat = none ∧ env.grants next = false

theorem scullcFollow_requests {n : ℕ} {items items' : List ListItem} {heap heap' : Heap}
    (h : scullcFollow env n items heap = .ok (items', heap')) :
    heap'.requests = heap.requests + (n - items.length) := by
  induction n generalizing items items' heap heap' with
  | zero =>
      cases h
      simp
  | succ n ih =>
      cases items with
      | cons item items =>
          simp only [scullcFollow, bind_eq_ok, Prod.exists, Except.ok.injEq, Prod.mk.injEq] at h
          obtain ⟨rest, heap₂, hrest, -, rfl⟩ := h
          rw [ih hrest, List.length_cons, Nat.add_sub_add_right]
      | nil =>
          simp only [scullcFollow] at h
          cases hgrant : env.grants heap.requests with
          | false => simp [kmalloc, hgrant] at h
          | true =>
              simp only [kmalloc, hgrant, if_true, bind_eq_ok, Prod.exists, Except.ok.injEq,
                Prod.mk.injEq] at h
              obtain ⟨rest, heap₂, hrest, -, rfl⟩ := h
              have hnext := ih hrest
              simp only [List.length_nil] at hnext ⊢
              omega

theorem ensureQuantum_none_iff {slot : Option Quantum} {got : Option Quantum}
    (h : ensureQuantum env m heap slot = .ok (got, heap₁)) :
    got = none ↔ slot = none ∧ env.grants heap.requests = false := by
  cases slot with
  | some mem =>
      cases h
      simp
  | none =>
      cases hgrant : env.grants heap.requests with
      | false =>
          simp only [ensureQuantum, kmalloc, hgrant, Bool.false_eq_true, if_false, Except.ok.injEq,
            Prod.mk.injEq] at h
          simp [h.1.symm]
      | true =>
          simp only [ensureQuantum, kmalloc, hgrant, if_true, bind_eq_ok, Except.ok.injEq,
            Prod.mk.injEq] at h
          obtain ⟨_, -, hmem, -⟩ := h
          simp [hmem.symm]

theorem ensureData_none_iff {found got : Option PtrArray}
    (h : ensureData env heap qset found = (got, heap₁)) :
    got = none ↔ found = none ∧ (env.grants heap.requests = false ∨ qset < 0) := by
  cases found with
  | some data =>
      cases h
      simp
  | none =>
      cases hgrant : env.grants heap.requests with
      | false =>
          simp only [ensureData, kmalloc, hgrant, Bool.false_eq_true, if_false, Prod.mk.injEq] at h
          simp [h.1.symm]
      | true =>
          simp only [ensureData, kmalloc, hgrant, if_true] at h
          split_ifs at h with hqset <;> cases h <;> simp [hqset]

/-- The array is the one that was there, or an empty one from the next request. -/
theorem ensureData_eq_some {found : Option PtrArray} {data : PtrArray}
    (h : ensureData env heap qset found = (some data, heap₁)) :
    (found = some data ∧ heap₁ = heap) ∨
      (found = none ∧ data.slots = (fun _ => none) ∧ heap₁.requests = heap.requests + 1) := by
  cases found with
  | some old =>
      cases h
      exact .inl ⟨rfl, rfl⟩
  | none =>
      refine .inr ⟨rfl, ?_⟩
      simp only [ensureData, kmalloc] at h
      split_ifs at h <;> cases h
      exact ⟨rfl, rfl⟩

/-- A write that has its list items gives up exactly when it is refused. -/
theorem writeTarget_none_iff {found : Option WriteTarget}
    (hloc : locate quantum qset pos = .ok loc)
    (h : writeTarget env m heap dev quantum qset count pos = .ok (found, dev₁, heap₁)) :
    found = none ↔ Refused env heap dev qset loc := by
  simp only [writeTarget, hloc, ok_bind, bind_eq_ok, Prod.exists] at h
  obtain ⟨items, heap₂, hfollow, h⟩ := h
  have hnext := scullcFollow_requests hfollow
  rw [(SameData.follow hfollow).dataAt] at h
  simp only [Refused, ← hnext]
  split at h
  · next heap₃ hensure =>
      cases h
      obtain ⟨hdata, hrefused⟩ := (ensureData_none_iff hensure).mp rfl
      rw [hdata]
      simp only [true_iff]
      rw [← or_assoc]
      exact .inl hrefused
  · next data heap₃ hensure =>
      simp only [bind_eq_ok, Prod.exists] at h
      obtain ⟨slot, hfetch, got, heap₄, hquantum, h⟩ := h
      obtain ⟨-, rfl⟩ := PtrArray.fetch_eq_ok.mp hfetch
      have hgot : found = none ↔ got = none := by
        cases got with
        | none =>
            cases h
            simp
        | some mem =>
            simp only [bind_eq_ok, Except.ok.injEq, Prod.mk.injEq] at h
            obtain ⟨_, -, hfound, -⟩ := h
            simp [hfound.symm]
      rw [hgot, ensureQuantum_none_iff hquantum]
      rcases ensureData_eq_some hensure with ⟨hdata, rfl⟩ | ⟨hdata, hslots, hrequests⟩
      · rw [hdata]
      · have hgranted : ¬ (env.grants heap₂.requests = false ∨ qset < 0) := fun hrefused => by
          cases (ensureData_none_iff hensure).mpr ⟨hdata, hrefused⟩
        rw [hdata]
        simp only [hslots, hrequests, true_and, ← or_assoc]
        exact (or_iff_right hgranted).symm

/-! ## The two ends of a write -/

theorem writeTarget_none_quantumAt
    (h : writeTarget env m heap dev quantum qset count pos = .ok (none, dev₁, heap₁)) (i j : ℕ) :
    dev₁.quantumAt i j = dev.quantumAt i j := by
  unfold ScullcDev.quantumAt
  cases hold : dev.dataAt i with
  | some data => rw [writeTarget_none_keeps h hold]
  | none =>
      cases hnew : dev₁.dataAt i with
      | none => rfl
      | some data =>
          rcases (writeTarget_none h).dataAt i data hnew with hkept | ⟨-, hslots⟩
          · rw [hold] at hkept
            cases hkept
          · simp [hslots]

@[simp] theorem refused_lock :
    Refused env heap dev.lock qset loc ↔ Refused env heap dev qset loc := by
  simp [Refused]

theorem scullcDoWrite_stores_signalled {t : Transfer}
    (h : scullcDoWrite env m heap dev buf count pos true = .ok t) (hsignal : env.signalled = true) :
    t.ret = -ERESTARTSYS ∧ Stores dev t.dev loc [] := by
  rw [scullcDoWrite, hsignal, if_pos rfl] at h
  cases h
  exact ⟨rfl, stores_nil fun _ _ => rfl⟩

theorem scullcDoWrite_stores_refused {t : Transfer}
    (h : scullcDoWrite env m heap dev buf count pos true = .ok t)
    (hloc : locate dev.quantum dev.qset pos = .ok loc) (hsignal : env.signalled = false)
    (hrefused : Refused env heap dev dev.qset loc) :
    t.ret = -ENOMEM ∧ Stores dev t.dev loc [] := by
  rw [scullcDoWrite_of_not_signalled hsignal] at h
  rcases writeLocked_ok h with ⟨dev₁, heap₁, htarget, rfl⟩ | ⟨w, dev₁, heap₁, htarget, rfl⟩
  · exact ⟨rfl, (stores_nil (writeTarget_none_quantumAt htarget)).unlock⟩
  · have hnone := (writeTarget_none_iff hloc htarget).mpr (refused_lock.mpr hrefused)
    cases hnone

theorem scullcDoWrite_stores_granted {t : Transfer}
    (h : scullcDoWrite env m heap dev buf count pos true = .ok t)
    (hloc : locate dev.quantum dev.qset pos = .ok loc) (hsignal : env.signalled = false)
    (hgranted : ¬ Refused env heap dev dev.qset loc) :
    t.ret = -EFAULT ∧
      Stores dev t.dev loc (buf.take (clampCount dev.quantum loc.qPos count)) := by
  rw [scullcDoWrite_of_not_signalled hsignal] at h
  rcases writeLocked_ok h with ⟨dev₁, heap₁, htarget, rfl⟩ | ⟨w, dev₁, heap₁, htarget, rfl⟩
  · exact absurd (refused_lock.mp ((writeTarget_none_iff hloc htarget).mp rfl)) hgranted
  · have hfinds := writeTarget_some htarget
    obtain ⟨item, hlocated, -⟩ := hfinds.located
    obtain rfl := Except.ok.inj (hloc.symm.trans hlocated)
    have hstored := hfinds.stores hloc (buf.take w.count)
    refine ⟨by simp [writeCopy], ?_⟩
    rw [← hfinds.count_eq]
    simpa [writeCopy, copiedIn] using hstored.unlock

end LddSamples.Scullc

import LddSamples.Kernel.Accounts
import LddSamples.Scullc.Invariant

/-!
# The memory that a scullc device owns

The quanta, arrays and list items that are reachable from a device, by their addresses.
A transfer adds to them what it has been granted, and a trim frees them all.
-/

namespace LddSamples.Scullc

open Kernel CArith Outcome

/-- A list item's quanta and then its array, as `scullc_trim` comes to them. -/
def ownedData : Option PtrArray → List ℕ
  | none => []
  | some data =>
      ((List.range data.len).filterMap fun i => (data.slots i).map Quantum.addr) ++ [data.addr]

def ownedItems : List ListItem → List ℕ
  | [] => []
  | item :: items => ownedData item.data ++ item.addr :: ownedItems items

/-- Everything but the device itself, which is the first list item. -/
def ScullcDev.owned (dev : ScullcDev) : List ℕ := ownedData dev.data ++ ownedItems dev.next

variable {env : Env} {m : Module} {heap heap₁ : Heap} {dev dev₁ : ScullcDev}
  {quantum qset : ℤ} {count : ℕ} {pos : ℤ} {aio : Bool}

@[simp] theorem lock_owned (dev : ScullcDev) : dev.lock.owned = dev.owned := rfl

@[simp] theorem unlock_owned (dev : ScullcDev) : dev.unlock.owned = dev.owned := rfl

/-! ## Trims -/

theorem foldl_kfree (addrs : List ℕ) (heap : Heap) :
    addrs.foldl kfree heap = { heap with freed := heap.freed ++ addrs } := by
  induction addrs generalizing heap with
  | nil => simp
  | cons a addrs ih => simp [ih, kfree]

/-- The loop over one array frees its quanta and the array, if it counts all slots. -/
theorem freeData_frees (heap : Heap) {found : Option PtrArray}
    (hlen : ∀ data, found = some data → (data.len : ℤ) = qset) :
    freeData qset heap found = .ok { heap with freed := heap.freed ++ ownedData found } := by
  cases found with
  | none => simp [freeData, ownedData]
  | some data =>
      have hqset := hlen data rfl
      have hcount : qset.toNat = data.len := by omega
      simp only [freeData, require_of hqset.ge, ok_bind, hcount, foldl_kfree, kfree, ownedData,
        List.append_assoc]

theorem freeItems_frees (heap : Heap) {items : List ListItem}
    (hlen : ∀ item ∈ items, ∀ data, item.data = some data → (data.len : ℤ) = qset) :
    freeItems qset heap items = .ok { heap with freed := heap.freed ++ ownedItems items } := by
  induction items generalizing heap with
  | nil => simp [freeItems, ownedItems]
  | cons item items ih =>
      simp only [freeItems, freeData_frees heap (hlen item List.mem_cons_self), ok_bind, kfree]
      rw [ih _ fun next hnext => hlen next (List.mem_cons_of_mem _ hnext)]
      simp [ownedItems]

/-- A trim of a device in shape frees what the device owns, each address once. -/
theorem scullcTrim_frees (m : Module) (heap : Heap) (hdev : Shaped dev) (hvmas : dev.vmas = 0) :
    scullcTrim m heap dev =
      .ok (0, dev.trimmed m, { heap with freed := heap.freed ++ dev.owned }) := by
  have hfirst : freeData dev.qset heap dev.data =
      .ok { heap with freed := heap.freed ++ ownedData dev.data } := freeData_frees heap (hdev 0)
  have hlen : ∀ item ∈ dev.next, ∀ data, item.data = some data → (data.len : ℤ) = dev.qset := by
    intro item hitem data hdata
    obtain ⟨n, hn⟩ := List.mem_iff_getElem?.mp hitem
    exact hdev (n + 1) data (by simp [ScullcDev.dataAt, hn, hdata])
  have hrest := freeItems_frees ⟨heap.requests, heap.freed ++ ownedData dev.data⟩ hlen
  simp only [scullcTrim, hvmas, ne_eq, not_true_eq_false, if_false, hfirst, ok_bind, hrest,
    List.append_assoc, ScullcDev.owned]

/-! ## Allocations -/

/-- The walk along the list appends items without data. -/
theorem scullcFollow_owned {n : ℕ} {items items' : List ListItem}
    (h : scullcFollow env n items heap = .ok (items', heap₁)) :
    ∃ new, Gains env heap heap₁ new ∧ ownedItems items' = ownedItems items ++ new := by
  induction n generalizing items items' heap heap₁ with
  | zero =>
      cases h
      exact ⟨[], .refl env heap, by simp⟩
  | succ n ih =>
      cases items with
      | cons item items =>
          simp only [scullcFollow, bind_eq_ok, Prod.exists, Except.ok.injEq, Prod.mk.injEq] at h
          obtain ⟨rest, _, hrest, rfl, rfl⟩ := h
          obtain ⟨new, hgains, howned⟩ := ih hrest
          exact ⟨new, hgains, by simp [ownedItems, howned]⟩
      | nil =>
          simp only [scullcFollow] at h
          split at h
          · cases h
          · next addr heap₂ halloc =>
              simp only [bind_eq_ok, Prod.exists, Except.ok.injEq, Prod.mk.injEq] at h
              obtain ⟨rest, _, hrest, rfl, rfl⟩ := h
              obtain ⟨new, hgains, howned⟩ := ih hrest
              refine ⟨[addr] ++ new, (kmalloc_some halloc).2.trans hgains, ?_⟩
              simp [ownedItems, ownedData, howned]

theorem ensureData_owned (hqset : 0 ≤ qset) {found : Option PtrArray} {data : PtrArray}
    (h : ensureData env heap qset found = (some data, heap₁)) :
    ∃ new, Gains env heap heap₁ new ∧ ownedData (some data) = ownedData found ++ new := by
  cases found with
  | some old =>
      cases h
      exact ⟨[], .refl env heap, by simp⟩
  | none =>
      simp only [ensureData, Int.not_lt.mpr hqset, if_false] at h
      split at h
      · cases h
      · next addr heap₂ halloc =>
          cases h
          exact ⟨[addr], (kmalloc_some halloc).2, by simp [ownedData]⟩

theorem ensureData_none (hqset : 0 ≤ qset) {found : Option PtrArray}
    (h : ensureData env heap qset found = (none, heap₁)) : Gains env heap heap₁ [] := by
  cases found with
  | some old => cases h
  | none =>
      simp only [ensureData, Int.not_lt.mpr hqset, if_false] at h
      split at h
      · next halloc =>
          cases h
          exact kmalloc_none halloc
      · cases h

theorem ensureQuantum_owned {slot : Option Quantum} {mem : Quantum}
    (h : ensureQuantum env m heap slot = .ok (some mem, heap₁)) :
    ∃ new, Gains env heap heap₁ new ∧
      (slot = some mem ∧ new = [] ∨ slot = none ∧ new = [mem.addr]) := by
  cases slot with
  | some old =>
      cases h
      exact ⟨[], .refl env heap, .inl ⟨rfl, rfl⟩⟩
  | none =>
      simp only [ensureQuantum] at h
      split at h
      · cases h
      · next addr heap₂ halloc =>
          simp only [bind_eq_ok, Except.ok.injEq, Prod.mk.injEq, Option.some.injEq] at h
          obtain ⟨_, -, rfl, rfl⟩ := h
          exact ⟨[addr], (kmalloc_some halloc).2, .inr ⟨rfl, rfl⟩⟩

theorem ensureQuantum_none {slot : Option Quantum}
    (h : ensureQuantum env m heap slot = .ok (none, heap₁)) : Gains env heap heap₁ [] := by
  cases slot with
  | some old => cases h
  | none =>
      simp only [ensureQuantum] at h
      split at h
      · next halloc =>
          cases h
          exact kmalloc_none halloc
      · simp at h

/-! ## Slots -/

theorem filterMap_update_perm {f : ℕ → Option ℕ} {j n : ℕ} (a : ℕ) (hj : j < n)
    (hf : f j = none) :
    ((List.range n).filterMap (Function.update f j (some a))).Perm
      (a :: (List.range n).filterMap f) := by
  induction n with
  | zero => cases hj
  | succ n ih =>
      rw [List.range_succ, List.filterMap_append, List.filterMap_append]
      rcases Nat.lt_succ_iff_lt_or_eq.mp hj with hlt | rfl
      · have hlast : [n].filterMap (Function.update f j (some a)) = [n].filterMap f := by
          simp only [List.filterMap_cons, List.filterMap_nil, Function.update_of_ne hlt.ne']
        rw [hlast]
        exact (ih hlt).append_right _
      · have hfirst : (List.range j).filterMap (Function.update f j (some a)) =
            (List.range j).filterMap f := by
          apply List.filterMap_congr
          intro i hi
          exact Function.update_of_ne (List.mem_range.mp hi).ne ..
        rw [hfirst]
        simp [hf]

theorem store_slots (data : PtrArray) (s : ℤ) (mem : Quantum) :
    (fun i => ((data.store s mem).slots i).map Quantum.addr) =
      Function.update (fun i => (data.slots i).map Quantum.addr) s.toNat (some mem.addr) := by
  funext i
  by_cases hi : i = s.toNat
  · simp [PtrArray.store, hi]
  · simp [PtrArray.store, hi]

theorem ownedData_store_same {data : PtrArray} {s : ℤ} {old mem : Quantum}
    (hold : data.slots s.toNat = some old) (haddr : old.addr = mem.addr) :
    ownedData (some (data.store s mem)) = ownedData (some data) := by
  have hsame : Function.update (fun i => (data.slots i).map Quantum.addr) s.toNat (some mem.addr) =
      fun i => (data.slots i).map Quantum.addr := by
    rw [Function.update_eq_self_iff, hold, Option.map_some, haddr]
  simp only [ownedData, store_slots, hsame]
  rfl

theorem ownedData_store_new {data : PtrArray} {s : ℤ} (mem : Quantum)
    (hin : 0 ≤ s ∧ s < data.len) (hfree : data.slots s.toNat = none) :
    (ownedData (some (data.store s mem))).Perm (ownedData (some data) ++ [mem.addr]) := by
  have hslot := filterMap_update_perm (f := fun i => (data.slots i).map Quantum.addr) mem.addr
    (show s.toNat < data.len by omega) (by rw [hfree]; rfl)
  simp only [ownedData, store_slots]
  rw [List.perm_iff_count] at hslot ⊢
  intro a
  have hcount := hslot a
  simp only [List.count_append, List.count_cons, List.count_nil, PtrArray.store] at hcount ⊢
  omega

/-! ## Replaced arrays -/

theorem ownedItems_modify {items : List ListItem} {n : ℕ} (hn : n < items.length)
    (data : PtrArray) :
    (ownedItems (items.modify n fun item => { item with data := some data }) ++
        ownedData (items[n]?.bind ListItem.data)).Perm
      (ownedItems items ++ ownedData (some data)) := by
  induction items generalizing n with
  | nil => cases hn
  | cons item items ih =>
      rw [List.perm_iff_count]
      intro a
      cases n with
      | zero =>
          simp only [List.modify_zero_cons, ownedItems, List.getElem?_cons_zero, Option.bind_some,
            List.count_append, List.count_cons]
          omega
      | succ n =>
          have hrest := (ih (Nat.lt_of_succ_lt_succ hn)).count_eq a
          simp only [List.modify_succ_cons, ownedItems, List.getElem?_cons_succ, List.count_append,
            List.count_cons] at hrest ⊢
          omega

theorem owned_setDataAt {n : ℕ} (hn : n ≤ dev.next.length) (data : PtrArray) :
    ((dev.setDataAt n data).owned ++ ownedData (dev.dataAt n)).Perm
      (dev.owned ++ ownedData (some data)) := by
  rw [List.perm_iff_count]
  intro a
  cases n with
  | zero =>
      simp only [ScullcDev.setDataAt, ScullcDev.dataAt, ScullcDev.owned, List.count_append]
      omega
  | succ n =>
      have hitems := (ownedItems_modify (Nat.lt_of_succ_le hn) data).count_eq a
      simp only [ScullcDev.setDataAt, ScullcDev.dataAt, ScullcDev.owned, List.count_append]
        at hitems ⊢
      omega

/-! ## Transfers -/

theorem follow_owned {n : ℕ} {items : List ListItem}
    (h : scullcFollow env n dev.next heap = .ok (items, heap₁)) :
    ∃ new, Gains env heap heap₁ new ∧
      ({ dev with next := items } : ScullcDev).owned = dev.owned ++ new := by
  obtain ⟨new, hgains, howned⟩ := scullcFollow_owned h
  exact ⟨new, hgains, by simp [ScullcDev.owned, howned]⟩

theorem readTarget_owned {found : Option (List Cell)}
    (h : readTarget env m heap dev quantum qset count pos = .ok (found, dev₁, heap₁)) :
    ∃ new, Gains env heap heap₁ new ∧ dev₁.owned = dev.owned ++ new := by
  unfold readTarget at h
  split at h
  · cases h
    exact ⟨[], .refl env heap, by simp⟩
  · simp only [bind_eq_ok, Prod.exists] at h
    obtain ⟨loc, -, items, heap₂, hfollow, h⟩ := h
    obtain ⟨new, hgains, howned⟩ := follow_owned hfollow
    have hend : heap₁ = heap₂ ∧ dev₁ = { dev with next := items } := by
      split at h
      · cases h
        exact ⟨rfl, rfl⟩
      · simp only [bind_eq_ok] at h
        obtain ⟨slot, -, h⟩ := h
        cases slot with
        | none =>
            cases h
            exact ⟨rfl, rfl⟩
        | some mem =>
            simp only [bind_eq_ok, Except.ok.injEq, Prod.mk.injEq] at h
            obtain ⟨_, -, -, rfl, rfl⟩ := h
            exact ⟨rfl, rfl⟩
    obtain ⟨rfl, rfl⟩ := hend
    exact ⟨new, hgains, howned⟩

/-- An array that has grown by `new` takes the place of the one it has grown from. -/
theorem owned_grown {n : ℕ} (hn : n ≤ dev.next.length) {data : PtrArray} {new : List ℕ}
    (hdata : (ownedData (some data)).Perm (ownedData (dev.dataAt n) ++ new)) :
    (dev.setDataAt n data).owned.Perm (dev.owned ++ new) := by
  have hset := owned_setDataAt hn data
  rw [List.perm_iff_count] at *
  intro a
  have hcount := hset a
  have hgrown := hdata a
  simp only [List.count_append] at hcount hgrown ⊢
  omega

theorem writeTarget_owned (hqset : 0 ≤ qset) {found : Option WriteTarget}
    (h : writeTarget env m heap dev quantum qset count pos = .ok (found, dev₁, heap₁)) :
    ∃ new, Gains env heap heap₁ new ∧ dev₁.owned.Perm (dev.owned ++ new) := by
  simp only [writeTarget, bind_eq_ok, Prod.exists] at h
  obtain ⟨loc, -, items, heap₂, hfollow, h⟩ := h
  obtain ⟨new, hgains, howned⟩ := follow_owned hfollow
  have hroom : toUInt32 loc.item ≤ items.length := by
    have hlength := (scullcFollow_spec hfollow).1
    omega
  split at h
  · next heap₃ hensure =>
      cases h
      exact ⟨new ++ [], hgains.trans (ensureData_none hqset hensure), by simp [howned]⟩
  · next data heap₃ hensure =>
      obtain ⟨new₁, hgains₁, hdata⟩ := ensureData_owned hqset hensure
      have hset : (ScullcDev.setDataAt { dev with next := items } (toUInt32 loc.item) data).owned.Perm
          (ScullcDev.owned { dev with next := items } ++ new₁) := owned_grown hroom (.of_eq hdata)
      have hsame := ScullcDev.dataAt_setDataAt { dev with next := items } hroom data
        (toUInt32 loc.item)
      rw [if_pos rfl] at hsame
      simp only [bind_eq_ok, Prod.exists] at h
      obtain ⟨slot, hfetch, got, heap₄, hquantum, h⟩ := h
      obtain ⟨hin, hslot⟩ := PtrArray.fetch_eq_ok.mp hfetch
      cases got with
      | none =>
          cases h
          refine ⟨new ++ new₁ ++ [], (hgains.trans hgains₁).trans (ensureQuantum_none hquantum), ?_⟩
          rw [List.append_nil, ← List.append_assoc, ← howned]
          exact hset
      | some mem =>
          simp only [bind_eq_ok, Except.ok.injEq, Prod.mk.injEq] at h
          obtain ⟨_, -, -, rfl, rfl⟩ := h
          obtain ⟨new₂, hgains₂, hcases⟩ := ensureQuantum_owned hquantum
          have hstore : (ownedData (some (data.store loc.sPos mem))).Perm
              (ownedData (some data) ++ new₂) := by
            rcases hcases with ⟨rfl, rfl⟩ | ⟨rfl, rfl⟩
            · rw [ownedData_store_same hslot rfl, List.append_nil]
            · exact ownedData_store_new mem hin hslot
          refine ⟨new ++ new₁ ++ new₂, (hgains.trans hgains₁).trans hgains₂, ?_⟩
          rw [← hsame] at hstore
          have hroom' : toUInt32 loc.item ≤ (ScullcDev.setDataAt { dev with next := items }
              (toUInt32 loc.item) data).next.length := by
            rwa [ScullcDev.setDataAt_next_length]
          have hlast := owned_grown hroom' hstore
          rw [← List.append_assoc, ← List.append_assoc, ← howned]
          exact hlast.trans (hset.append_right _)

/-- The copy of a write leaves the addresses of quanta alone. -/
theorem WriteFinds.fill_owned {t : WriteTarget}
    (h : WriteFinds m dev quantum qset count pos t dev₁) (bytes : List Cell) :
    (t.fill dev₁ bytes).owned.Perm dev₁.owned := by
  have hdata : dev₁.dataAt t.item = some t.data := by rw [h.dataAt, if_pos rfl]
  have hslot : t.data.slots t.sPos.toNat = some t.mem := by rw [h.slots_eq, if_pos rfl]
  have hstore : (ownedData (some (t.data.store t.sPos
      { t.mem with cells := ByteMap.overwrite t.mem.cells t.qPos.toNat bytes }))).Perm
        (ownedData (dev₁.dataAt t.item) ++ []) := by
    rw [hdata, List.append_nil]
    exact .of_eq (ownedData_store_same hslot rfl)
  have hsame := owned_grown h.item_le hstore
  rwa [List.append_nil] at hsame

theorem extend_owned (dev : ScullcDev) (pos : ℤ) : (dev.extend pos).owned = dev.owned := by
  unfold ScullcDev.extend
  split <;> rfl

theorem writeCopy_owned (env : Env) (dev : ScullcDev) (heap : Heap) (t : WriteTarget)
    (buf : List UInt8) (pos : ℤ) (aio : Bool) :
    (writeCopy env dev heap t buf pos aio).heap = heap ∧
      (writeCopy env dev heap t buf pos aio).dev.owned =
        (t.fill dev (copiedIn env buf t.count aio)).owned := by
  unfold writeCopy
  split_ifs
  · exact ⟨rfl, rfl⟩
  · exact ⟨rfl, extend_owned _ _⟩

theorem readLocked_owned {t : Transfer}
    (h : readLocked env m heap dev quantum qset count pos aio = .ok t) :
    ∃ new, Gains env heap t.heap new ∧ t.dev.owned.Perm (dev.owned ++ new) := by
  rcases readLocked_ok h with ⟨dev₁, heap₁, htarget, rfl⟩ | ⟨bytes, dev₁, heap₁, htarget, rfl⟩
  · obtain ⟨new, hgains, howned⟩ := readTarget_owned htarget
    exact ⟨new, hgains, .of_eq howned⟩
  · obtain ⟨new, hgains, howned⟩ := readTarget_owned htarget
    have hheap : (readCopy env dev₁ heap₁ bytes pos aio).heap = heap₁ := by
      unfold readCopy
      split_ifs <;> rfl
    rw [hheap, readCopy_dev, unlock_owned]
    exact ⟨new, hgains, .of_eq howned⟩

theorem writeLocked_owned {buf : List UInt8} (hqset : 0 ≤ qset) {r : Transfer}
    (h : writeLocked env m heap dev quantum qset buf count pos aio = .ok r) :
    ∃ new, Gains env heap r.heap new ∧ r.dev.owned.Perm (dev.owned ++ new) := by
  rcases writeLocked_ok h with ⟨dev₁, heap₁, htarget, rfl⟩ | ⟨t, dev₁, heap₁, htarget, rfl⟩
  · obtain ⟨new, hgains, howned⟩ := writeTarget_owned hqset htarget
    exact ⟨new, hgains, howned⟩
  · obtain ⟨new, hgains, howned⟩ := writeTarget_owned hqset htarget
    obtain ⟨hheap, hcopy⟩ := writeCopy_owned env dev₁ heap₁ t buf pos aio
    rw [hheap, hcopy]
    exact ⟨new, hgains, ((writeTarget_some htarget).fill_owned _).trans howned⟩

theorem scullcDoRead_owned {t : Transfer}
    (h : scullcDoRead env m heap dev count pos aio = .ok t) :
    ∃ new, Gains env heap t.heap new ∧ t.dev.owned.Perm (dev.owned ++ new) := by
  unfold scullcDoRead at h
  split at h
  · cases h
    exact ⟨[], .refl env heap, by simp⟩
  · obtain ⟨new, hgains, howned⟩ := readLocked_owned h
    exact ⟨new, hgains, howned⟩

theorem scullcDoWrite_owned {buf : List UInt8} (hqset : 0 ≤ dev.qset) {t : Transfer}
    (h : scullcDoWrite env m heap dev buf count pos aio = .ok t) :
    ∃ new, Gains env heap t.heap new ∧ t.dev.owned.Perm (dev.owned ++ new) := by
  unfold scullcDoWrite at h
  split at h
  · cases h
    exact ⟨[], .refl env heap, by simp⟩
  · have hlock : 0 ≤ dev.lock.qset := hqset
    obtain ⟨new, hgains, howned⟩ := writeLocked_owned hlock h
    exact ⟨new, hgains, howned⟩

end LddSamples.Scullc

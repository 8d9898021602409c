import LddSamples.Kernel.Basic
import LddSamples.Library.ByteMap

/-!
# The scullc device: a list of arrays of lazily allocated quanta

The memory of `struct scullc_dev` and the three steps that find a byte in it:
the split of a position into list item, array index and offset, the walk along
the list, and the checked array access.
-/

namespace LddSamples.Scullc

open Kernel CArith Outcome

def SCULLC_QUANTUM : ℤ := 4000
def SCULLC_QSET : ℤ := 500
abbrev SCULLC_DEVS : ℕ := 4

instance : NeZero SCULLC_DEVS := ⟨by decide⟩

structure Quantum where
  addr : ℕ
  cells : ℕ → Cell

/-- The pointer array `dptr->data`, with the length it was allocated with. -/
structure PtrArray where
  addr : ℕ
  len : ℕ
  slots : ℕ → Option Quantum

structure ListItem where
  addr : ℕ
  data : Option PtrArray

/-- `struct scullc_dev`. The device is its own first list item; `next` is the
rest of the list in order. -/
structure ScullcDev where
  data : Option PtrArray
  next : List ListItem
  vmas : ℤ
  quantum : ℤ
  qset : ℤ
  size : ℕ
  mutex : Bool

/-- The module's variables, with the object size `scullc_cache` was created with. -/
structure Module where
  scullcQuantum : ℤ
  scullcQset : ℤ
  objectSize : ℕ

namespace ScullcDev

def lock (dev : ScullcDev) : ScullcDev := { dev with mutex := true }

def unlock (dev : ScullcDev) : ScullcDev := { dev with mutex := false }

def dataAt (dev : ScullcDev) : ℕ → Option PtrArray
  | 0 => dev.data
  | n + 1 => dev.next[n]?.bind ListItem.data

def setDataAt (dev : ScullcDev) (n : ℕ) (data : PtrArray) : ScullcDev :=
  match n with
  | 0 => { dev with data := some data }
  | n + 1 => { dev with next := dev.next.modify n fun item => { item with data := some data } }

/-- The length of the array of list item `n`, or of the one that a write with
the given `qset` makes there. -/
def lenAt (dev : ScullcDev) (n : ℕ) (qset : ℤ) : ℤ :=
  ((dev.dataAt n).map fun data => (data.len : ℤ)).getD qset

def quantumAt (dev : ScullcDev) (n s : ℕ) : Option Quantum :=
  (dev.dataAt n).bind fun data => data.slots s

@[simp] theorem lock_dataAt (dev : ScullcDev) (n : ℕ) : dev.lock.dataAt n = dev.dataAt n := by
  cases n <;> rfl

@[simp] theorem unlock_dataAt (dev : ScullcDev) (n : ℕ) : dev.unlock.dataAt n = dev.dataAt n := by
  cases n <;> rfl

@[simp] theorem lock_next (dev : ScullcDev) : dev.lock.next = dev.next := rfl
@[simp] theorem lock_size (dev : ScullcDev) : dev.lock.size = dev.size := rfl
@[simp] theorem lock_quantum (dev : ScullcDev) : dev.lock.quantum = dev.quantum := rfl
@[simp] theorem lock_qset (dev : ScullcDev) : dev.lock.qset = dev.qset := rfl
@[simp] theorem unlock_next (dev : ScullcDev) : dev.unlock.next = dev.next := rfl
@[simp] theorem unlock_size (dev : ScullcDev) : dev.unlock.size = dev.size := rfl
@[simp] theorem unlock_quantum (dev : ScullcDev) : dev.unlock.quantum = dev.quantum := rfl
@[simp] theorem unlock_qset (dev : ScullcDev) : dev.unlock.qset = dev.qset := rfl

@[simp] theorem setDataAt_size (dev : ScullcDev) (n : ℕ) (data : PtrArray) :
    (dev.setDataAt n data).size = dev.size := by
  cases n <;> rfl

@[simp] theorem setDataAt_quantum (dev : ScullcDev) (n : ℕ) (data : PtrArray) :
    (dev.setDataAt n data).quantum = dev.quantum := by
  cases n <;> rfl

@[simp] theorem setDataAt_qset (dev : ScullcDev) (n : ℕ) (data : PtrArray) :
    (dev.setDataAt n data).qset = dev.qset := by
  cases n <;> rfl

@[simp] theorem setDataAt_vmas (dev : ScullcDev) (n : ℕ) (data : PtrArray) :
    (dev.setDataAt n data).vmas = dev.vmas := by
  cases n <;> rfl

@[simp] theorem setDataAt_next_length (dev : ScullcDev) (n : ℕ) (data : PtrArray) :
    (dev.setDataAt n data).next.length = dev.next.length := by
  cases n <;> simp [setDataAt]

theorem le_of_dataAt {dev : ScullcDev} {n : ℕ} {data : PtrArray} (h : dev.dataAt n = some data) :
    n ≤ dev.next.length := by
  cases n with
  | zero => exact Nat.zero_le _
  | succ n =>
      rw [dataAt] at h
      obtain ⟨item, hitem, -⟩ := Option.bind_eq_some_iff.mp h
      exact (List.getElem?_eq_some_iff.mp hitem).1

theorem dataAt_setDataAt (dev : ScullcDev) {n : ℕ} (hn : n ≤ dev.next.length) (data : PtrArray)
    (i : ℕ) : (dev.setDataAt n data).dataAt i = if i = n then some data else dev.dataAt i := by
  cases n with
  | zero => cases i <;> simp [setDataAt, dataAt]
  | succ n =>
      cases i with
      | zero => simp [setDataAt, dataAt]
      | succ i =>
          simp only [setDataAt, dataAt, List.getElem?_modify]
          by_cases hi : i = n
          · subst hi
            have hlt : i < dev.next.length := by omega
            simp [hlt]
          · have hne : ¬ n = i := fun h => hi h.symm
            simp [hi, hne]

end ScullcDev

/-! ## Finding a byte -/

structure Loc where
  item : ℤ
  sPos : ℤ
  qPos : ℤ

/-- The three assignments that split `*f_pos`: `item` is a `long` quotient cut
down to an `int`. -/
def locate (quantum qset pos : ℤ) : Except Fault Loc := do
  let itemsize := toInt32 (quantum * qset)
  let item ← ofOption .divideError (quot pos itemsize)
  let rest ← ofOption .divideError (rem pos itemsize)
  let sPos ← ofOption .divideError (quot rest quantum)
  let qPos ← ofOption .divideError (rem rest quantum)
  .ok ⟨toInt32 item, sPos, qPos⟩

/-- `scullc_follow` from the device on. The counter is an `int` that is counted
down to zero, so it stands for its value modulo `2 ^ 32`. A failed allocation
is not tested for, and the `memset` after it writes through a null pointer. -/
def scullcFollow (env : Env) : ℕ → List ListItem → Heap → Except Fault (List ListItem × Heap)
  | 0, items, heap => .ok (items, heap)
  | n + 1, item :: items, heap => do
      let (items, heap) ← scullcFollow env n items heap
      .ok (item :: items, heap)
  | n + 1, [], heap =>
      match kmalloc env heap with
      | (none, _) => .error .nullDereference
      | (some addr, heap) => do
          let (items, heap) ← scullcFollow env n [] heap
          .ok (⟨addr, none⟩ :: items, heap)

def PtrArray.fetch (data : PtrArray) (s : ℤ) : Except Fault (Option Quantum) := do
  require .indexOutOfBounds (0 ≤ s ∧ s < data.len)
  .ok (data.slots s.toNat)

def PtrArray.store (data : PtrArray) (s : ℤ) (q : Quantum) : PtrArray :=
  { data with slots := Function.update data.slots s.toNat (some q) }

@[simp] theorem PtrArray.store_len (data : PtrArray) (s : ℤ) (q : Quantum) :
    (data.store s q).len = data.len := rfl

@[simp] theorem PtrArray.fetch_eq_ok {data : PtrArray} {s : ℤ} {slot : Option Quantum} :
    data.fetch s = .ok slot ↔ (0 ≤ s ∧ s < data.len) ∧ data.slots s.toNat = slot := by
  simp [fetch]

/-- The list grows to hold item `n`; the items that were there keep their data
and the new ones have none. -/
theorem scullcFollow_spec {env : Env} {n : ℕ} {items items' : List ListItem} {heap heap' : Heap}
    (h : scullcFollow env n items heap = .ok (items', heap')) :
    items'.length = max n items.length ∧
      ∀ i : ℕ, items'[i]?.bind ListItem.data = items[i]?.bind ListItem.data := by
  induction n generalizing items items' heap heap' with
  | zero =>
      cases h
      exact ⟨by simp, fun _ => rfl⟩
  | succ n ih =>
      cases items with
      | cons item items =>
          simp only [scullcFollow, bind_eq_ok, Prod.exists, Except.ok.injEq, Prod.mk.injEq] at h
          obtain ⟨rest, _, hrest, rfl, rfl⟩ := h
          obtain ⟨hlen, hdata⟩ := ih hrest
          refine ⟨by simp [hlen], fun i => ?_⟩
          cases i with
          | zero => rfl
          | succ i => simpa using hdata i
      | nil =>
          simp only [scullcFollow] at h
          cases halloc : kmalloc env heap with
          | mk got heap₁ =>
              rw [halloc] at h
              cases got with
              | none => cases h
              | some addr =>
                  simp only [bind_eq_ok, Prod.exists, Except.ok.injEq, Prod.mk.injEq] at h
                  obtain ⟨rest, _, hrest, rfl, rfl⟩ := h
                  obtain ⟨hlen, hdata⟩ := ih hrest
                  refine ⟨by simp [hlen], fun i => ?_⟩
                  cases i with
                  | zero => rfl
                  | succ i => simpa using hdata i

theorem scullcFollow_calm (n : ℕ) (items : List ListItem) (heap : Heap) :
    ∃ items' heap', scullcFollow Env.calm n items heap = .ok (items', heap') := by
  induction n generalizing items heap with
  | zero => exact ⟨items, heap, rfl⟩
  | succ n ih =>
      cases items with
      | cons item items =>
          obtain ⟨items', heap', h⟩ := ih items heap
          exact ⟨item :: items', heap', by simp [scullcFollow, h]⟩
      | nil =>
          obtain ⟨items', heap', h⟩ := ih [] { heap with requests := heap.requests + 1 }
          exact ⟨⟨heap.requests, none⟩ :: items', heap', by simp [scullcFollow, h]⟩

theorem scullcFollow_of_le {env : Env} {heap : Heap} {n : ℕ} {items : List ListItem}
    (hn : n ≤ items.length) :
    scullcFollow env n items heap = .ok (items, heap) := by
  induction n generalizing items with
  | zero => rfl
  | succ n ih =>
      cases items with
      | nil => simp at hn
      | cons item items =>
          simp only [scullcFollow, ih (Nat.le_of_succ_le_succ hn), ok_bind]

theorem dataAt_follow {env : Env} {n : ℕ} {dev : ScullcDev} {items : List ListItem}
    {heap heap' : Heap} (h : scullcFollow env n dev.next heap = .ok (items, heap')) (i : ℕ) :
    ({ dev with next := items } : ScullcDev).dataAt i = dev.dataAt i := by
  cases i with
  | zero => rfl
  | succ i => exact (scullcFollow_spec h).2 i

end LddSamples.Scullc

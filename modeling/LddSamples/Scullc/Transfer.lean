import LddSamples.Scullc.Device

/-!
# scullc_do_read and scullc_do_write

Each routine samples the geometry of the device, takes the mutex, finds the
quantum, and copies. The critical section is a definition of its own, because
the sample is taken before the mutex.
-/

namespace LddSamples.Scullc

open Kernel CArith Outcome ByteMap

/-- What a call leaves behind. `out` is what it put in the caller's buffer. -/
structure Transfer where
  ret : ℤ
  pos : ℤ
  out : List Cell
  dev : ScullcDev
  heap : Heap

/-- `if (count > quantum - q_pos) count = quantum - q_pos;` -/
def clampCount (quantum qPos : ℤ) (count : ℕ) : ℕ :=
  if toUInt64 (toInt32 (quantum - qPos)) < count then toUInt64 (toInt32 (quantum - qPos))
  else count

/-- `if (*f_pos + count > dev->size) count = dev->size - *f_pos;` -/
def clampSize (size : ℕ) (pos : ℤ) (count : ℕ) : ℕ :=
  if size < (toUInt64 pos + count) % 18446744073709551616 then toUInt64 (size - pos) else count

/-- The critical section of a read up to the copy: the bytes to be copied out,
or `none` where the code takes `goto nothing`. -/
def readTarget (env : Env) (m : Module) (heap : Heap) (dev : ScullcDev) (quantum qset : ℤ)
    (count : ℕ) (pos : ℤ) : Except Fault (Option (List Cell) × ScullcDev × Heap) :=
  if dev.size < toUInt64 pos then .ok (none, dev, heap)
  else do
    let count := clampSize dev.size pos count
    let loc ← locate quantum qset pos
    let (items, heap) ← scullcFollow env (toUInt32 loc.item) dev.next heap
    let dev := { dev with next := items }
    match dev.dataAt (toUInt32 loc.item) with
    | none => .ok (none, dev, heap)
    | some data => do
        match ← data.fetch loc.sPos with
        | none => .ok (none, dev, heap)
        | some mem => do
            let count := clampCount quantum loc.qPos count
            require .copyOutOfBounds (Inside m.objectSize loc.qPos count)
            .ok (some (window mem.cells loc.qPos.toNat count), dev, heap)

/-- The copy at the end of a read. `memcpy` returns its destination, which is
never null, so the `aio` branch always takes its error exit. -/
def readCopy (env : Env) (dev : ScullcDev) (heap : Heap) (bytes : List Cell) (pos : ℤ)
    (aio : Bool) : Transfer :=
  if aio then ⟨-EFAULT, pos, bytes, dev.unlock, heap⟩
  else if env.copied bytes.length < bytes.length then
    ⟨-EFAULT, pos, bytes.take (env.copied bytes.length), dev.unlock, heap⟩
  else ⟨bytes.length, toInt64 (pos + bytes.length), bytes, dev.unlock, heap⟩

/-- `scullc_do_read` from the acquired mutex on, with the sampled geometry. -/
def readLocked (env : Env) (m : Module) (heap : Heap) (dev : ScullcDev) (quantum qset : ℤ)
    (count : ℕ) (pos : ℤ) (aio : Bool) : Except Fault Transfer := do
  match ← readTarget env m heap dev quantum qset count pos with
  | (none, dev, heap) => .ok ⟨0, pos, [], dev.unlock, heap⟩
  | (some bytes, dev, heap) => .ok (readCopy env dev heap bytes pos aio)

def scullcDoRead (env : Env) (m : Module) (heap : Heap) (dev : ScullcDev) (count : ℕ) (pos : ℤ)
    (aio : Bool) : Except Fault Transfer :=
  if env.signalled then .ok ⟨-ERESTARTSYS, pos, [], dev, heap⟩
  else readLocked env m heap dev.lock dev.quantum dev.qset count pos aio

def scullcRead (env : Env) (m : Module) (heap : Heap) (dev : ScullcDev) (count : ℕ) (pos : ℤ) :
    Except Fault Transfer :=
  scullcDoRead env m heap dev count pos false

/-! ## Writing -/

/-- `if (!dptr->data)`: the array of the list item, allocated and cleared when
there is none. The result is `none` when the allocation fails. -/
def ensureData (env : Env) (heap : Heap) (qset : ℤ) : Option PtrArray → Option PtrArray × Heap
  | some data => (some data, heap)
  | none =>
      match kmalloc env heap with
      | (none, heap) => (none, heap)
      | (some addr, heap) =>
          if qset < 0 then (none, heap) else (some ⟨addr, qset.toNat, fun _ => none⟩, heap)

/-- `if (!dptr->data[s_pos])`: the quantum, allocated when there is none. The
`memset` after the allocation clears `scullc_quantum` bytes. -/
def ensureQuantum (env : Env) (m : Module) (heap : Heap) :
    Option Quantum → Except Fault (Option Quantum × Heap)
  | some mem => .ok (some mem, heap)
  | none =>
      match kmalloc env heap with
      | (none, heap) => .ok (none, heap)
      | (some addr, heap) => do
          require .memsetOutOfBounds (toUInt64 m.scullcQuantum ≤ m.objectSize)
          .ok (some ⟨addr, fun i => if i < toUInt64 m.scullcQuantum then some 0 else none⟩, heap)

structure WriteTarget where
  item : ℕ
  sPos : ℤ
  qPos : ℤ
  data : PtrArray
  mem : Quantum
  count : ℕ

/-- The critical section of a write up to the copy; `none` where the code takes
`goto nomem`. -/
def writeTarget (env : Env) (m : Module) (heap : Heap) (dev : ScullcDev) (quantum qset : ℤ)
    (count : ℕ) (pos : ℤ) : Except Fault (Option WriteTarget × ScullcDev × Heap) := do
  let loc ← locate quantum qset pos
  let n := toUInt32 loc.item
  let (items, heap) ← scullcFollow env n dev.next heap
  let dev := { dev with next := items }
  match ensureData env heap qset (dev.dataAt n) with
  | (none, heap) => .ok (none, dev, heap)
  | (some data, heap) => do
      let dev := dev.setDataAt n data
      let slot ← data.fetch loc.sPos
      match ← ensureQuantum env m heap slot with
      | (none, heap) => .ok (none, dev, heap)
      | (some mem, heap) => do
          let data := data.store loc.sPos mem
          let dev := dev.setDataAt n data
          let count := clampCount quantum loc.qPos count
          require .copyOutOfBounds (Inside m.objectSize loc.qPos count)
          .ok (some ⟨n, loc.sPos, loc.qPos, data, mem, count⟩, dev, heap)

/-- What the copy of `count` bytes stores: `memcpy` stores all of them, and
`copy_from_user` pads what it could not read with zeros. -/
def copiedIn (env : Env) (buf : List UInt8) (count : ℕ) (aio : Bool) : List Cell :=
  if aio ∨ count ≤ env.copied count then (buf.take count).map some
  else (buf.take (env.copied count)).map some ++ List.replicate (count - env.copied count) (some 0)

def WriteTarget.fill (t : WriteTarget) (dev : ScullcDev) (bytes : List Cell) : ScullcDev :=
  dev.setDataAt t.item
    (t.data.store t.sPos { t.mem with cells := overwrite t.mem.cells t.qPos.toNat bytes })

/-- `if (dev->size < *f_pos) dev->size = *f_pos;` -/
def ScullcDev.extend (dev : ScullcDev) (pos : ℤ) : ScullcDev :=
  if dev.size < toUInt64 pos then { dev with size := toUInt64 pos } else dev

def writeCopy (env : Env) (dev : ScullcDev) (heap : Heap) (t : WriteTarget) (buf : List UInt8)
    (pos : ℤ) (aio : Bool) : Transfer :=
  let dev := t.fill dev (copiedIn env buf t.count aio)
  if aio ∨ env.copied t.count < t.count then ⟨-EFAULT, pos, [], dev.unlock, heap⟩
  else
    let pos := toInt64 (pos + t.count)
    ⟨t.count, pos, [], (dev.extend pos).unlock, heap⟩

/-- `scullc_do_write` from the acquired mutex on, with the sampled geometry. -/
def writeLocked (env : Env) (m : Module) (heap : Heap) (dev : ScullcDev) (quantum qset : ℤ)
    (buf : List UInt8) (count : ℕ) (pos : ℤ) (aio : Bool) : Except Fault Transfer := do
  match ← writeTarget env m heap dev quantum qset count pos with
  | (none, dev, heap) => .ok ⟨-ENOMEM, pos, [], dev.unlock, heap⟩
  | (some t, dev, heap) => .ok (writeCopy env dev heap t buf pos aio)

def scullcDoWrite (env : Env) (m : Module) (heap : Heap) (dev : ScullcDev) (buf : List UInt8)
    (count : ℕ) (pos : ℤ) (aio : Bool) : Except Fault Transfer :=
  if env.signalled then .ok ⟨-ERESTARTSYS, pos, [], dev, heap⟩
  else writeLocked env m heap dev.lock dev.quantum dev.qset buf count pos aio

def scullcWrite (env : Env) (m : Module) (heap : Heap) (dev : ScullcDev) (buf : List UInt8)
    (pos : ℤ) : Except Fault Transfer :=
  scullcDoWrite env m heap dev buf buf.length pos false

end LddSamples.Scullc

import LddSamples.Kernel.Basic
import LddSamples.Library.LittleEndian

/-!
# lab5_silly: four ways to reach the memory from 640k to 1M

The minor number chooses the width of an access, which is taken down to what the address
and the length are multiples of. The window behind `io_base` is plain little-endian memory.
-/

namespace LddSamples.Hardware.Silly

open Kernel CArith Outcome ByteMap LittleEndian

def ISA_BASE : ℕ := 0xA0000
def ISA_MAX : ℕ := 0x100000

theorem ISA_BASE_eq : ISA_BASE = 655360 := rfl

theorem ISA_MAX_eq : ISA_MAX = 1048576 := rfl

/-- The most that `kmalloc` grants. -/
def KMALLOC_MAX_SIZE : ℕ := 4194304

theorem KMALLOC_MAX_SIZE_eq : KMALLOC_MAX_SIZE = 4194304 := rfl

def EPERM : ℤ := 1

/-- `enum silly_modes`. -/
inductive Mode
  | M_8
  | M_16
  | M_32
  | M_memcpy
  deriving DecidableEq

def Mode.ofMinor : ℕ → Option Mode
  | 0 => some .M_8
  | 1 => some .M_16
  | 2 => some .M_32
  | 3 => some .M_memcpy
  | _ => none

def Mode.minor : Mode → ℕ
  | .M_8 => 0
  | .M_16 => 1
  | .M_32 => 2
  | .M_memcpy => 3

/-- The end of the range; `count < 0` is never true of a `size_t`. -/
def clampCount (isaAddr count : ℕ) : ℕ :=
  if toUInt64 (isaAddr + count) > ISA_MAX then toUInt64 (ISA_MAX - isaAddr) else count

def downgrade (isaAddr count : ℕ) (mode : Mode) : Mode :=
  let mode := if mode = .M_32 ∧ (isaAddr ||| count) &&& 3 ≠ 0 then .M_16 else mode
  if mode = .M_16 ∧ (isaAddr ||| count) &&& 1 ≠ 0 then .M_8 else mode

/-- The loops around `ioread8`, `ioread16` and `ioread32`: what they put in `kbuf`. An access
that is not inside the remapped range is a fault. -/
def readLoop (w : ℕ) [NeZero w] (window : ℕ → UInt8) (add : ℤ) (count : ℕ) :
    Except Fault (List UInt8) :=
  if w ≤ count then do
    require .indexOutOfBounds (Inside (ISA_MAX - ISA_BASE) add w)
    let rest ← readLoop w window (add + w) (count - w)
    .ok (bytes w (load window add.toNat w) ++ rest)
  else .ok []
termination_by count
decreasing_by
  have hw := NeZero.pos w
  omega

/-- The loops of the write. All of them are around `iowrite8`, which stores the low byte of
the word that is taken from `kbuf`. -/
def writeLoop (w : ℕ) [NeZero w] (window : ℕ → UInt8) (ptr : List UInt8) (add : ℤ) (count : ℕ) :
    Except Fault (ℕ → UInt8) :=
  if w ≤ count then do
    require .indexOutOfBounds (Inside (ISA_MAX - ISA_BASE) add 1)
    writeLoop w (store window add.toNat 1 (value (ptr.take w))) (ptr.drop w) (add + w) (count - w)
  else .ok window
termination_by count
decreasing_by
  have hw := NeZero.pos w
  omega

/-- The `switch`; the last case is `memcpy_fromio`. -/
def readMode (window : ℕ → UInt8) (add : ℤ) (count : ℕ) : Mode → Except Fault (List UInt8)
  | .M_32 => readLoop 4 window add count
  | .M_16 => readLoop 2 window add count
  | .M_8 => readLoop 1 window add count
  | .M_memcpy => do
      require .indexOutOfBounds (Inside (ISA_MAX - ISA_BASE) add count)
      .ok (ByteMap.window window add.toNat count)

def writeMode (window : ℕ → UInt8) (ptr : List UInt8) (add : ℤ) (count : ℕ) :
    Mode → Except Fault (ℕ → UInt8)
  | .M_32 => writeLoop 4 window ptr add count
  | .M_16 => writeLoop 2 window ptr add count
  | .M_8 => writeLoop 1 window ptr add count
  | .M_memcpy => do
      require .indexOutOfBounds (Inside (ISA_MAX - ISA_BASE) add count)
      .ok (overwrite window add.toNat (ptr.take count))

/-- The value returned, `*f_pos` afterwards, and what the user buffer received. -/
structure ReadResult where
  ret : ℤ
  pos : ℤ
  out : List UInt8

structure WriteResult where
  ret : ℤ
  pos : ℤ
  window : ℕ → UInt8

/-- How a call ends: its result, the buffer that it got from `kmalloc`, and the heap. -/
structure Exit (ρ : Type) where
  result : ρ
  kbuf : Option ℕ
  heap : Heap

/-- `kmalloc(count, GFP_KERNEL)`. -/
def kmallocCount (env : Env) (heap : Heap) (count : ℕ) : Option ℕ × Heap :=
  if count ≤ KMALLOC_MAX_SIZE then kmalloc env heap
  else (none, { heap with requests := heap.requests + 1 })

/-- `silly_read` with its buffer. The `default` case returns without having freed it. -/
def sillyReadExit (env : Env) (heap : Heap) (minor : ℕ) (window : ℕ → UInt8) (count : ℕ)
    (pos : ℤ) : Except Fault (Exit ReadResult) :=
  let isaAddr := toUInt64 (ISA_BASE + pos)
  let count := clampCount isaAddr count
  match kmallocCount env heap count with
  | (none, heap) => .ok ⟨⟨-ENOMEM, pos, []⟩, none, heap⟩
  | (some kbuf, heap) =>
      match Mode.ofMinor minor with
      | none => .ok ⟨⟨-EINVAL, pos, []⟩, some kbuf, heap⟩
      | some mode => do
          let bytes ← readMode window (isaAddr - ISA_BASE) count (downgrade isaAddr count mode)
          let retval := toInt32 count
          let retval := if retval > 0 ∧ env.copied count < count then -EFAULT else retval
          .ok ⟨⟨retval, pos + retval, bytes.take (env.copied count)⟩, some kbuf, kfree heap kbuf⟩

/-- `capable` is `capable(CAP_SYS_RAWIO)` of the caller. -/
def sillyWriteExit (capable : Bool) (env : Env) (heap : Heap) (minor : ℕ) (window : ℕ → UInt8)
    (buf : List UInt8) (pos : ℤ) : Except Fault (Exit WriteResult) :=
  let isaAddr := toUInt64 (ISA_BASE + pos)
  let count := clampCount isaAddr buf.length
  if capable = false then .ok ⟨⟨-EPERM, pos, window⟩, none, heap⟩
  else
    match kmallocCount env heap count with
    | (none, heap) => .ok ⟨⟨-ENOMEM, pos, window⟩, none, heap⟩
    | (some kbuf, heap) =>
        if env.copied count < count then .ok ⟨⟨-EFAULT, pos, window⟩, some kbuf, kfree heap kbuf⟩
        else
          match Mode.ofMinor minor with
          | none => .ok ⟨⟨-EINVAL, pos, window⟩, some kbuf, heap⟩
          | some mode => do
              let window ← writeMode window (buf.take count) (isaAddr - ISA_BASE) count
                (downgrade isaAddr count mode)
              let retval := toInt32 count
              .ok ⟨⟨retval, pos + retval, window⟩, some kbuf, kfree heap kbuf⟩

/-- `silly_read` as its caller sees it. -/
def sillyRead (env : Env) (minor : ℕ) (window : ℕ → UInt8) (count : ℕ) (pos : ℤ) :
    Except Fault ReadResult :=
  (sillyReadExit env ⟨0, []⟩ minor window count pos).map Exit.result

def sillyWrite (capable : Bool) (env : Env) (minor : ℕ) (window : ℕ → UInt8) (buf : List UInt8)
    (pos : ℤ) : Except Fault WriteResult :=
  (sillyWriteExit capable env ⟨0, []⟩ minor window buf pos).map Exit.result

/-- A write of `data` in one mode stores exactly `data`, and a read in the other mode at the
same position returns it. -/
def Interchangeable (write read : Mode) (window : ℕ → UInt8) (data : List UInt8) (pos : ℕ) :
    Prop :=
  ∃ r, sillyWrite true Env.calm write.minor window data pos = .ok r ∧
    r.ret = data.length ∧ r.window = overwrite window pos data ∧
    ∃ r', sillyRead Env.calm read.minor r.window data.length pos = .ok r' ∧
      r'.ret = data.length ∧ r'.out = data

/-- How many bytes of `kbuf` an access of a write takes. -/
def Mode.width : Mode → ℕ
  | .M_8 => 1
  | .M_16 => 2
  | .M_32 => 4
  | .M_memcpy => 1

/-! ## The loops -/

/-- The window with those bytes of `ptr` stored from `add` on that are at multiples of `w`. -/
def strided (w : ℕ) (window : ℕ → UInt8) (add : ℕ) (ptr : List UInt8) (i : ℕ) : UInt8 :=
  if add ≤ i ∧ (i - add) % w = 0 then (ptr[i - add]?).getD (window i) else window i

@[simp] theorem strided_one (window : ℕ → UInt8) (add : ℕ) (ptr : List UInt8) :
    strided 1 window add ptr = overwrite window add ptr := by
  funext i
  simp [strided, overwrite, Nat.mod_one]

/-- Nothing else changes. -/
theorem strided_of_not_mem {w add i : ℕ} {window : ℕ → UInt8} {ptr : List UInt8}
    (hout : ¬ (add ≤ i ∧ i < add + ptr.length)) : strided w window add ptr i = window i := by
  unfold strided
  split_ifs with hin
  · rw [List.getElem?_eq_none (by omega), Option.getD_none]
  · rfl

theorem readLoop_eq (w : ℕ) [NeZero w] (window : ℕ → UInt8) {add k : ℕ}
    (hfit : add + k * w ≤ ISA_MAX - ISA_BASE) :
    readLoop w window add (k * w) = .ok (ByteMap.window window add (k * w)) := by
  induction k generalizing add with
  | zero =>
      rw [readLoop, Nat.zero_mul, if_neg (NeZero.pos w).not_ge, window_zero]
  | succ k ih =>
      have hsum : (k + 1) * w = w + k * w := by rw [Nat.succ_mul, Nat.add_comm]
      rw [hsum] at hfit ⊢
      have hinside : Inside (ISA_MAX - ISA_BASE) add w := by
        right
        omega
      have hnext := ih (show add + w + k * w ≤ ISA_MAX - ISA_BASE by omega)
      rw [Nat.cast_add] at hnext
      rw [readLoop, if_pos (Nat.le_add_right w _), require_of hinside, ok_bind,
        Nat.add_sub_cancel_left, hnext, ok_bind, Int.toNat_natCast, store_load, window_add]

theorem bytes_one (v : ℤ) : bytes 1 v = [UInt8.ofNat (v % 256).toNat] := rfl

/-- An access of the loop stores the first byte that it takes. -/
theorem store_low (window : ℕ → UInt8) (add : ℕ) (b : UInt8) (bs : List UInt8) :
    store window add 1 (value (b :: bs)) = Function.update window add b := by
  have hlow : ((value (b :: bs) : ℤ) % 256).toNat = b.toNat := by
    have hb : b.toNat < 256 := b.toNat_lt
    rw [value]
    omega
  rw [store, bytes_one, hlow, UInt8.ofNat_toNat, overwrite_singleton]

/-- An access and what the loop stores behind it. -/
theorem strided_cons (w : ℕ) [NeZero w] (window : ℕ → UInt8) (add : ℕ) (b : UInt8)
    (bs : List UInt8) :
    strided w (Function.update window add b) (add + w) ((b :: bs).drop w) =
      strided w window add (b :: bs) := by
  have hw := NeZero.pos w
  funext i
  unfold strided
  rcases lt_trichotomy i add with hbefore | rfl | hafter
  · rw [if_neg (by omega), if_neg (by omega), Function.update_of_ne hbefore.ne]
  · rw [if_neg (by omega), if_pos (by simp), Function.update_self]
    simp
  · rw [Function.update_of_ne hafter.ne']
    by_cases hnext : add + w ≤ i
    · have hmod : (i - (add + w)) % w = (i - add) % w := by
        rw [Nat.mod_eq_sub_mod (show w ≤ i - add by omega), Nat.sub_sub]
      have hindex : w + (i - (add + w)) = i - add := by omega
      rw [hmod, List.getElem?_drop, hindex]
      simp only [hnext, hafter.le, true_and]
    · have hinside : (i - add) % w ≠ 0 := by
        rw [Nat.mod_eq_of_lt (by omega)]
        omega
      rw [if_neg (by omega), if_neg (by tauto)]

/-- The loop stores the bytes at multiples of the width only. -/
theorem writeLoop_eq (w : ℕ) [NeZero w] (window : ℕ → UInt8) (ptr : List UInt8) {add k : ℕ}
    (hptr : ptr.length = k * w) (hfit : add + k * w ≤ ISA_MAX - ISA_BASE) :
    writeLoop w window ptr add (k * w) = .ok (strided w window add ptr) := by
  have hw : 0 < w := NeZero.pos w
  induction k generalizing window ptr add with
  | zero =>
      rw [Nat.zero_mul] at hptr
      rw [writeLoop, Nat.zero_mul, if_neg hw.not_ge, List.eq_nil_of_length_eq_zero hptr]
      refine congrArg Except.ok (funext fun i => ?_)
      simp [strided]
  | succ k ih =>
      have hsum : (k + 1) * w = w + k * w := by rw [Nat.succ_mul, Nat.add_comm]
      rw [hsum] at hptr hfit ⊢
      have hinside : Inside (ISA_MAX - ISA_BASE) add 1 := by
        right
        omega
      obtain ⟨b, bs, hbs⟩ := List.exists_cons_of_length_pos (l := ptr) (by omega)
      obtain ⟨v, hv⟩ := Nat.exists_eq_succ_of_ne_zero hw.ne'
      have htake : ptr.take w = b :: bs.take v := by rw [hbs, hv, List.take_succ_cons]
      have hdrop : (ptr.drop w).length = k * w := by
        rw [List.length_drop]
        omega
      have hnext := ih (Function.update window add b) (ptr.drop w) hdrop
        (show add + w + k * w ≤ ISA_MAX - ISA_BASE by omega)
      rw [Nat.cast_add] at hnext
      rw [writeLoop, if_pos (Nat.le_add_right w _), require_of hinside, ok_bind,
        Nat.add_sub_cancel_left, Int.toNat_natCast, htake, store_low, hnext, hbs, strided_cons]

/-- What the loop leaves out is not missed exactly when it was there already. -/
theorem strided_eq_overwrite_iff (w : ℕ) (window : ℕ → UInt8) (add : ℕ)
    (ptr : List UInt8) :
    strided w window add ptr = overwrite window add ptr ↔
      ∀ i, (h : i < ptr.length) → i % w ≠ 0 → window (add + i) = ptr[i] := by
  constructor
  · intro heq i hi hskipped
    have hbyte := congrFun heq (add + i)
    rwa [strided, Nat.add_sub_cancel_left, if_neg fun hboth => hskipped hboth.2,
      overwrite_of_mem window add hi] at hbyte
  · intro hthere
    funext i
    by_cases hbefore : i < add
    · rw [strided, if_neg (by omega), overwrite_of_lt window ptr hbefore]
    · obtain ⟨j, rfl⟩ := Nat.exists_eq_add_of_le (not_lt.mp hbefore)
      by_cases hj : j < ptr.length
      · rw [strided, Nat.add_sub_cancel_left, overwrite_of_mem window add hj]
        split
        · simp [hj]
        · next hskipped => exact hthere j hj fun hzero => hskipped ⟨Nat.le_add_right _ _, hzero⟩
      · rw [strided_of_not_mem (by omega), overwrite_of_ge window (by omega)]

/-! ## The modes -/

theorem and_three_eq_zero {a b : ℕ} : (a ||| b) &&& 3 = 0 ↔ 4 ∣ a ∧ 4 ∣ b := by
  rw [Nat.and_or_distrib_right, Nat.or_eq_zero_iff, Nat.and_two_pow_sub_one_eq_mod a 2,
    Nat.and_two_pow_sub_one_eq_mod b 2, Nat.dvd_iff_mod_eq_zero, Nat.dvd_iff_mod_eq_zero]

theorem and_one_eq_zero {a b : ℕ} : (a ||| b) &&& 1 = 0 ↔ 2 ∣ a ∧ 2 ∣ b := by
  rw [Nat.and_or_distrib_right, Nat.or_eq_zero_iff, Nat.and_two_pow_sub_one_eq_mod a 1,
    Nat.and_two_pow_sub_one_eq_mod b 1, Nat.dvd_iff_mod_eq_zero, Nat.dvd_iff_mod_eq_zero]

/-- The length is a multiple of the width that is left. -/
theorem width_downgrade_dvd (isaAddr count : ℕ) (mode : Mode) :
    (downgrade isaAddr count mode).width ∣ count := by
  have hhalf : ∀ m : Mode, m ≠ .M_32 →
      (if m = .M_16 ∧ (isaAddr ||| count) &&& 1 ≠ 0 then Mode.M_8 else m).width ∣ count := by
    intro m hm
    split
    · exact one_dvd count
    · next heven =>
        cases m with
        | M_16 =>
            have hzero : (isaAddr ||| count) &&& 1 = 0 := by
              by_contra hodd
              exact heven ⟨rfl, hodd⟩
            exact (and_one_eq_zero.mp hzero).2
        | M_32 => exact absurd rfl hm
        | _ => exact one_dvd count
  by_cases hword : mode = .M_32 ∧ (isaAddr ||| count) &&& 3 ≠ 0
  · simpa only [downgrade, if_pos hword] using hhalf .M_16 (by decide)
  · by_cases hmode : mode = .M_32
    · have hwords : (isaAddr ||| count) &&& 3 = 0 := by
        by_contra hodd
        exact hword ⟨hmode, hodd⟩
      rw [downgrade, if_neg hword, hmode]
      exact (and_three_eq_zero.mp hwords).2
    · simpa only [downgrade, if_neg hword] using hhalf mode hmode

theorem readMode_eq (window : ℕ → UInt8) {add count : ℕ} {mode : Mode} (h : mode.width ∣ count)
    (hfit : add + count ≤ ISA_MAX - ISA_BASE) :
    readMode window add count mode = .ok (ByteMap.window window add count) := by
  obtain ⟨k, rfl⟩ := h
  rw [Nat.mul_comm] at hfit ⊢
  cases mode with
  | M_8 => exact readLoop_eq 1 window hfit
  | M_16 => exact readLoop_eq 2 window hfit
  | M_32 => exact readLoop_eq 4 window hfit
  | M_memcpy =>
      have hinside : Inside (ISA_MAX - ISA_BASE) add (k * Mode.M_memcpy.width) := by
        right
        omega
      rw [readMode, require_of hinside, ok_bind, Int.toNat_natCast]

theorem writeMode_eq (window : ℕ → UInt8) (ptr : List UInt8) {add : ℕ} {mode : Mode}
    (h : mode.width ∣ ptr.length) (hfit : add + ptr.length ≤ ISA_MAX - ISA_BASE) :
    writeMode window ptr add ptr.length mode = .ok (strided mode.width window add ptr) := by
  obtain ⟨k, hk⟩ := h
  rw [Nat.mul_comm] at hk
  rw [hk] at hfit ⊢
  cases mode with
  | M_8 => exact writeLoop_eq 1 window ptr hk hfit
  | M_16 => exact writeLoop_eq 2 window ptr hk hfit
  | M_32 => exact writeLoop_eq 4 window ptr hk hfit
  | M_memcpy =>
      have hinside : Inside (ISA_MAX - ISA_BASE) add (k * Mode.M_memcpy.width) := by
        right
        omega
      rw [writeMode, require_of hinside, ok_bind, Int.toNat_natCast, ← hk, List.take_length]
      exact congrArg Except.ok (strided_one window add ptr).symm

/-! ## The calls -/

variable {window : ℕ → UInt8} {data : List UInt8} {pos count : ℕ}

theorem Mode.ofMinor_minor (mode : Mode) : Mode.ofMinor mode.minor = some mode := by
  cases mode <;> rfl

theorem toUInt64_isaAddr (h : pos + count ≤ ISA_MAX - ISA_BASE) :
    toUInt64 ((ISA_BASE : ℤ) + pos) = ISA_BASE + pos := by
  have hmax := ISA_MAX_eq
  have hbase := ISA_BASE_eq
  rw [← Nat.cast_add]
  exact toUInt64_natCast (by omega)

theorem clampCount_inside (h : pos + count ≤ ISA_MAX - ISA_BASE) :
    clampCount (ISA_BASE + pos) count = count := by
  have hmax := ISA_MAX_eq
  have hbase := ISA_BASE_eq
  have hend : toUInt64 ((ISA_BASE + pos : ℕ) + (count : ℤ)) = ISA_BASE + pos + count := by
    rw [← Nat.cast_add]
    exact toUInt64_natCast (by omega)
  rw [clampCount, hend, if_neg (by omega)]

theorem kmallocCount_calm (heap : Heap) (h : pos + count ≤ ISA_MAX - ISA_BASE) :
    kmallocCount Env.calm heap count =
      (some heap.requests, { heap with requests := heap.requests + 1 }) := by
  have hmax := ISA_MAX_eq
  have hbase := ISA_BASE_eq
  have hcount : count ≤ KMALLOC_MAX_SIZE := by
    unfold KMALLOC_MAX_SIZE
    omega
  rw [kmallocCount, if_pos hcount, kmalloc_calm]

theorem toInt32_count (h : pos + count ≤ ISA_MAX - ISA_BASE) : toInt32 count = count := by
  have hmax := ISA_MAX_eq
  have hbase := ISA_BASE_eq
  exact toInt32_of_mem (by omega) (by unfold INT_MAX; omega)

/-- The mode of the accesses of a transfer. -/
def Mode.effective (mode : Mode) (pos count : ℕ) : Mode := downgrade (ISA_BASE + pos) count mode

/-- Every mode reads the same. -/
theorem sillyRead_eq (window : ℕ → UInt8) (mode : Mode) (h : pos + count ≤ ISA_MAX - ISA_BASE) :
    sillyRead Env.calm mode.minor window count pos =
      .ok ⟨count, pos + count, ByteMap.window window pos count⟩ := by
  have hout := readMode_eq window (width_downgrade_dvd (ISA_BASE + pos) count mode) h
  have hlength : (ByteMap.window window pos count).take count = ByteMap.window window pos count :=
    List.take_of_length_le (window_length ..).le
  simp [sillyRead, sillyReadExit, toUInt64_isaAddr h, clampCount_inside h, kmallocCount_calm _ h,
    Mode.ofMinor_minor, toInt32_count h, hout, hlength, Except.map]

theorem sillyWrite_eq (window : ℕ → UInt8) (mode : Mode)
    (h : pos + data.length ≤ ISA_MAX - ISA_BASE) :
    sillyWrite true Env.calm mode.minor window data pos =
      .ok ⟨data.length, pos + data.length,
        strided (mode.effective pos data.length).width window pos data⟩ := by
  have hstored := writeMode_eq window data (width_downgrade_dvd (ISA_BASE + pos) data.length mode) h
  simp [sillyWrite, sillyWriteExit, toUInt64_isaAddr h, clampCount_inside h,
    kmallocCount_calm _ h, Mode.ofMinor_minor, toInt32_count h, hstored, Mode.effective,
    Except.map]

/-- Two modes are interchangeable exactly when the bytes that the loop of the write leaves
out are there already. -/
theorem interchangeable_iff (write read : Mode) (window : ℕ → UInt8)
    (h : pos + data.length ≤ ISA_MAX - ISA_BASE) :
    Interchangeable write read window data pos ↔
      ∀ i, (hi : i < data.length) → i % (write.effective pos data.length).width ≠ 0 →
        window (pos + i) = data[i] := by
  have hwritten :=
    strided_eq_overwrite_iff (write.effective pos data.length).width window pos data
  have hread := sillyRead_eq (overwrite window pos data) read h
  rw [window_overwrite] at hread
  unfold Interchangeable
  rw [sillyWrite_eq window write h]
  constructor
  · rintro ⟨r, hr, -, hstored, -⟩
    cases hr
    exact hwritten.mp hstored
  · intro hthere
    have hstored := hwritten.mpr hthere
    refine ⟨_, rfl, rfl, hstored, ⟨data.length, pos + data.length, data⟩, ?_, rfl, rfl⟩
    rw [← hread]
    exact congrArg (fun f => sillyRead Env.calm read.minor f data.length pos) hstored

/-- Bytes, and words at an odd place, are stored whole. -/
theorem interchangeable_at_odd :
    Interchangeable .M_32 .M_16 (fun _ => 0) [1, 2, 3, 4] 1 :=
  (interchangeable_iff .M_32 .M_16 (fun _ => 0) (by decide)).mpr fun i _ hskipped =>
    absurd (Nat.mod_one i) hskipped

/-- A word at an aligned place loses three of its bytes. -/
theorem word_loses_bytes :
    ∃ r, sillyWrite true Env.calm Mode.M_32.minor (fun _ => 0) [1, 2, 3, 4] 0 = .ok r ∧
      r.ret = 4 ∧ ByteMap.window r.window 0 4 = [1, 0, 0, 0] ∧
      ¬ Interchangeable .M_32 .M_8 (fun _ => 0) [1, 2, 3, 4] 0 := by
  have hfits : 0 + ([1, 2, 3, 4] : List UInt8).length ≤ ISA_MAX - ISA_BASE := by decide
  have hwrite := sillyWrite_eq (fun _ => 0) .M_32 hfits
  have hbytes : ByteMap.window (strided 4 (fun _ => (0 : UInt8)) 0 [1, 2, 3, 4]) 0 4 =
      [1, 0, 0, 0] := by decide
  refine ⟨_, hwrite, rfl, hbytes, ?_⟩
  rintro ⟨r, hr, -, hstored, -⟩
  rw [hwrite] at hr
  cases hr
  have hwhole : ByteMap.window (overwrite (fun _ => (0 : UInt8)) 0 [1, 2, 3, 4]) 0 4 =
      [1, 2, 3, 4] := window_overwrite _ 0 [1, 2, 3, 4]
  rw [← hstored] at hwhole
  have hsame := hbytes.symm.trans hwhole
  revert hsame
  decide

end LddSamples.Hardware.Silly

import LddSamples.Kernel.Basic
import LddSamples.Library.ByteMap

/-!
# The ram disk of lab_miscdev.h

`mycdrv_generic_read`, `mycdrv_generic_write` and `mycdrv_generic_lseek`. The space that
is left behind the position is kept in an `int`, compared with a `size_t`, and handed
on as a `size_t` again. `k` is how many bytes of the user buffer are accessible.
-/

namespace LddSamples.Dma

open Kernel CArith Outcome ByteMap

def RAMDISK_SIZE : ℕ := 16 * PAGE_SIZE

theorem RAMDISK_SIZE_eq : RAMDISK_SIZE = 65536 := rfl

/-- The value returned, `*ppos` afterwards, and what the user buffer received. -/
structure ReadResult where
  ret : ℤ
  pos : ℤ
  out : List UInt8

structure WriteResult where
  ret : ℤ
  pos : ℤ
  ramdisk : ℕ → UInt8

/-- `maxbytes = ramdisk_size - *ppos`. -/
def maxbytes (size : ℕ) (pos : ℤ) : ℤ := toInt32 (toUInt64 (size - pos))

/-- `bytes_to_do = maxbytes > lbuf ? lbuf : maxbytes`. -/
def bytesToDo (size lbuf : ℕ) (pos : ℤ) : ℤ :=
  if toUInt64 (maxbytes size pos) > lbuf then toInt32 lbuf else maxbytes size pos

/-- The read of a ram disk of `size` bytes. -/
def ramdiskRead (size : ℕ) (ramdisk : ℕ → UInt8) (lbuf : ℕ) (pos : ℤ) (k : ℕ) :
    Except Fault ReadResult := do
  let n := toUInt64 (bytesToDo size lbuf pos)
  require .copyOutOfBounds (Inside size pos n)
  let nbytes := toInt32 (bytesToDo size lbuf pos - (n - min k n : ℕ))
  .ok ⟨nbytes, toInt64 (pos + nbytes), window ramdisk pos.toNat (min k n)⟩

/-- The write; `copy_from_user` fills with zeros what it could not copy. -/
def ramdiskWrite (size : ℕ) (ramdisk : ℕ → UInt8) (buf : List UInt8) (pos : ℤ) (k : ℕ) :
    Except Fault WriteResult := do
  let n := toUInt64 (bytesToDo size buf.length pos)
  require .copyOutOfBounds (Inside size pos n)
  let nbytes := toInt32 (bytesToDo size buf.length pos - (n - min k n : ℕ))
  .ok ⟨nbytes, toInt64 (pos + nbytes),
    overwrite ramdisk pos.toNat (buf.take (min k n) ++ List.replicate (n - min k n) 0)⟩

def mycdrvGenericRead := ramdiskRead RAMDISK_SIZE

def mycdrvGenericWrite := ramdiskWrite RAMDISK_SIZE

/-- `mycdrv_read` of lab_all_interrupt.h, on a ram disk of one page. -/
def AllInterrupt.mycdrvRead := ramdiskRead PAGE_SIZE

/-- `testpos` is compared as a `size_t` with the size, and then as a `loff_t` with 0. -/
def clampSeek (testpos : ℤ) : ℤ :=
  let testpos := if toUInt64 testpos < RAMDISK_SIZE then testpos else RAMDISK_SIZE
  if testpos ≥ 0 then testpos else 0

/-- The returned value and the new `file->f_pos`. -/
def mycdrvGenericLseek (fPos offset : ℤ) (orig : ℕ) : ℤ × ℤ :=
  if orig = SEEK_SET then
    (clampSeek (toInt64 offset), clampSeek (toInt64 offset))
  else if orig = SEEK_CUR then
    (clampSeek (toInt64 (fPos + offset)), clampSeek (toInt64 (fPos + offset)))
  else if orig = SEEK_END then
    (clampSeek (toInt64 (RAMDISK_SIZE + offset)), clampSeek (toInt64 (RAMDISK_SIZE + offset)))
  else (-EINVAL, fPos)

/-! ## The clamp -/

variable {size lbuf n k : ℕ} {pos : ℤ} {ramdisk : ℕ → UInt8} {buf : List UInt8}

/-- Up to the end of the ram disk the clamp is exact, for every length. -/
theorem bytesToDo_inside {p : ℕ} (hp : p ≤ size) (hsize : size ≤ 2147483647) :
    bytesToDo size lbuf p = (min lbuf (size - p) : ℕ) := by
  have hmax : maxbytes size p = (size - p : ℕ) := by
    rw [maxbytes, toInt32_toUInt64, ← Int.ofNat_sub hp]
    exact toInt32_of_mem (by omega) (by unfold INT_MAX; omega)
  rw [bytesToDo, hmax, toUInt64_natCast (by omega)]
  split
  · next hmore =>
      rw [toInt32_of_mem (by omega) (by unfold INT_MAX; omega), Nat.min_eq_left (by omega)]
  · next hless => rw [Nat.min_eq_right (by omega)]

/-- From any position there is something to do, unless nothing is asked for or the
distance to the end vanishes in 32 bits. -/
theorem exists_bytesToDo (size : ℕ) (pos : ℤ) (hlbuf : lbuf ≤ MAX_RW_COUNT) :
    ∃ n : ℕ, bytesToDo size lbuf pos = n ∧ n ≤ lbuf ∧
      (n = 0 ↔ lbuf = 0 ∨ (pos - size) % 4294967296 = 0) := by
  have hrw := MAX_RW_COUNT_eq
  have hmax : maxbytes size pos = toInt32 (size - pos) := toInt32_toUInt64 _
  have hlbuf' : toInt32 lbuf = lbuf := toInt32_of_mem (by omega) (by unfold INT_MAX; omega)
  have hrange : -2147483648 ≤ toInt32 (size - pos) ∧ toInt32 (size - pos) ≤ 2147483647 ∧
      (toInt32 (size - pos) = 0 ↔ (pos - size) % 4294967296 = 0) := by
    unfold toInt32
    omega
  rw [bytesToDo, hmax, hlbuf']
  split
  · next hmore =>
      refine ⟨lbuf, rfl, le_refl _, ?_⟩
      unfold toUInt64 at hmore
      omega
  · next hless =>
      unfold toUInt64 at hless
      exact ⟨(toInt32 (size - pos)).toNat, by omega, by omega, by omega⟩

/-- `bytes_to_do` less what could not be copied. -/
theorem nbytes_eq (hmax : n ≤ 2147483647) :
    toInt32 ((n : ℤ) - (n - min k n : ℕ)) = (min k n : ℕ) := by
  rw [toInt32_of_mem (by omega) (by unfold INT_MAX; omega)]
  omega

theorem ramdiskRead_eq (hn : bytesToDo size lbuf pos = n) (hmax : n ≤ 2147483647) :
    ramdiskRead size ramdisk lbuf pos k =
      if Inside size pos n then
        .ok ⟨(min k n : ℕ), toInt64 (pos + (min k n : ℕ)), window ramdisk pos.toNat (min k n)⟩
      else .error .copyOutOfBounds := by
  simp only [ramdiskRead, hn, toUInt64_natCast (show n < 18446744073709551616 by omega),
    nbytes_eq hmax, require]
  split <;> rfl

theorem ramdiskWrite_eq (hn : bytesToDo size buf.length pos = n) (hmax : n ≤ 2147483647) :
    ramdiskWrite size ramdisk buf pos k =
      if Inside size pos n then
        .ok ⟨(min k n : ℕ), toInt64 (pos + (min k n : ℕ)),
          overwrite ramdisk pos.toNat (buf.take (min k n) ++ List.replicate (n - min k n) 0)⟩
      else .error .copyOutOfBounds := by
  simp only [ramdiskWrite, hn, toUInt64_natCast (show n < 18446744073709551616 by omega),
    nbytes_eq hmax, require]
  split <;> rfl

/-- A position on the ram disk does not overflow when it is moved. -/
theorem toInt64_moved {p : ℕ} (hp : p + n ≤ RAMDISK_SIZE) :
    toInt64 ((p : ℤ) + n) = (p + n : ℕ) := by
  have hsize := RAMDISK_SIZE_eq
  rw [toInt64_of_mem (by omega) (by omega), Int.natCast_add]

theorem mycdrvGenericRead_eq (ramdisk : ℕ → UInt8) (lbuf k : ℕ) {p : ℕ} (hp : p ≤ RAMDISK_SIZE) :
    mycdrvGenericRead ramdisk lbuf p k =
      .ok ⟨(min k (min lbuf (RAMDISK_SIZE - p)) : ℕ), (p + min k (min lbuf (RAMDISK_SIZE - p)) : ℕ),
        window ramdisk p (min k (min lbuf (RAMDISK_SIZE - p)))⟩ := by
  have hsize := RAMDISK_SIZE_eq
  have hinside : Inside RAMDISK_SIZE p (min lbuf (RAMDISK_SIZE - p)) :=
    .inr ⟨Int.natCast_nonneg p, by omega⟩
  rw [mycdrvGenericRead, ramdiskRead_eq (bytesToDo_inside hp (by decide)) (by omega),
    if_pos hinside, toInt64_moved (by omega), Int.toNat_natCast]

theorem mycdrvGenericWrite_eq (ramdisk : ℕ → UInt8) (buf : List UInt8) (k : ℕ) {p : ℕ}
    (hp : p ≤ RAMDISK_SIZE) :
    mycdrvGenericWrite ramdisk buf p k =
      .ok ⟨(min k (min buf.length (RAMDISK_SIZE - p)) : ℕ),
        (p + min k (min buf.length (RAMDISK_SIZE - p)) : ℕ),
        overwrite ramdisk p (buf.take (min k (min buf.length (RAMDISK_SIZE - p))) ++
          List.replicate (min buf.length (RAMDISK_SIZE - p) -
            min k (min buf.length (RAMDISK_SIZE - p))) 0)⟩ := by
  have hsize := RAMDISK_SIZE_eq
  have hinside : Inside RAMDISK_SIZE p (min buf.length (RAMDISK_SIZE - p)) :=
    .inr ⟨Int.natCast_nonneg p, by omega⟩
  rw [mycdrvGenericWrite, ramdiskWrite_eq (bytesToDo_inside hp (by decide)) (by omega),
    if_pos hinside, toInt64_moved (by omega), Int.toNat_natCast]

theorem clampSeek_mem (x : ℤ) :
    0 ≤ clampSeek (toInt64 x) ∧ clampSeek (toInt64 x) ≤ RAMDISK_SIZE := by
  have hsize := RAMDISK_SIZE_eq
  simp only [clampSeek, hsize]
  unfold toUInt64 toInt64
  split_ifs <;> omega

theorem mycdrvGenericLseek_mem {fPos : ℤ} (hlow : 0 ≤ fPos) (hhigh : fPos ≤ RAMDISK_SIZE)
    (offset : ℤ) (orig : ℕ) :
    0 ≤ (mycdrvGenericLseek fPos offset orig).2 ∧
      (mycdrvGenericLseek fPos offset orig).2 ≤ RAMDISK_SIZE := by
  unfold mycdrvGenericLseek
  split_ifs
  · exact clampSeek_mem _
  · exact clampSeek_mem _
  · exact clampSeek_mem _
  · exact ⟨hlow, hhigh⟩

/-! ## Positions past the end -/

/-- The value returned and the new position are those of a file of `size` bytes. -/
structure Clamped (size lbuf : ℕ) (pos ret pos' : ℤ) : Prop where
  before : pos < size → ret = min (lbuf : ℤ) (size - pos)
  beyond : (size : ℤ) ≤ pos → ret = 0 ∧ pos' = pos

/-- Nothing is moved to or from beyond the end. -/
def Harmless (size lbuf : ℕ) (pos : ℤ) : Prop :=
  pos ≤ size ∨ lbuf = 0 ∨ (pos - size) % 4294967296 = 0

instance (size lbuf : ℕ) (pos : ℤ) : Decidable (Harmless size lbuf pos) :=
  inferInstanceAs (Decidable (_ ∨ _ ∨ _))

/-- The copy stays inside the ram disk, and is then clamped, exactly when it is harmless. -/
theorem clamped_iff (hsize : size ≤ 2147483647) (hlow : 0 ≤ pos)
    (hhigh : pos < 9223372036854775808) (hlbuf : lbuf ≤ MAX_RW_COUNT)
    (hn : bytesToDo size lbuf pos = n) :
    (Inside size pos n ∧ Clamped size lbuf pos n (toInt64 (pos + n))) ↔ Harmless size lbuf pos := by
  obtain ⟨n', hn', -, hzero⟩ := exists_bytesToDo size pos hlbuf
  obtain rfl : n' = n := by omega
  have hrw := MAX_RW_COUNT_eq
  by_cases hbeyond : (size : ℤ) < pos
  · have hharmless : Harmless size lbuf pos ↔ n' = 0 := by
      rw [Harmless, hzero, or_iff_right (by omega)]
    rw [hharmless]
    constructor
    · rintro ⟨hinside, -⟩
      unfold Inside at hinside
      omega
    · rintro rfl
      refine ⟨.inl rfl, fun hbefore => absurd hbefore (by omega), fun _ => ⟨rfl, ?_⟩⟩
      rw [Nat.cast_zero, add_zero, toInt64_of_mem (by omega) hhigh]
  · obtain ⟨p, rfl⟩ := Int.eq_ofNat_of_zero_le hlow
    have hp : p ≤ size := by omega
    rw [bytesToDo_inside hp hsize] at hn
    refine iff_of_true ⟨.inr ⟨hlow, by omega⟩, fun _ => by omega, fun hend => ?_⟩ (.inl (by omega))
    obtain rfl : n' = 0 := by omega
    exact ⟨rfl, by rw [Nat.cast_zero, add_zero, toInt64_of_mem (by omega) hhigh]⟩

theorem ramdiskRead_clamped_iff (ramdisk : ℕ → UInt8) (hsize : size ≤ 2147483647) (hlow : 0 ≤ pos)
    (hhigh : pos < 9223372036854775808) (hlbuf : lbuf ≤ MAX_RW_COUNT) :
    (∃ r, ramdiskRead size ramdisk lbuf pos lbuf = .ok r ∧
      Clamped size lbuf pos r.ret r.pos) ↔ Harmless size lbuf pos := by
  have hrw := MAX_RW_COUNT_eq
  obtain ⟨n, hn, hle, -⟩ := exists_bytesToDo size pos hlbuf
  rw [← clamped_iff hsize hlow hhigh hlbuf hn, ramdiskRead_eq hn (by omega), Nat.min_eq_right hle]
  by_cases hinside : Inside size pos n
  · simp [hinside]
  · simp [hinside]

theorem ramdiskWrite_clamped_iff (ramdisk : ℕ → UInt8) (hsize : size ≤ 2147483647)
    (hlow : 0 ≤ pos) (hhigh : pos < 9223372036854775808) (hbuf : buf.length ≤ MAX_RW_COUNT) :
    (∃ r, ramdiskWrite size ramdisk buf pos buf.length = .ok r ∧
      Clamped size buf.length pos r.ret r.pos) ↔ Harmless size buf.length pos := by
  have hrw := MAX_RW_COUNT_eq
  obtain ⟨n, hn, hle, -⟩ := exists_bytesToDo size pos hbuf
  rw [← clamped_iff hsize hlow hhigh hbuf hn, ramdiskWrite_eq hn (by omega), Nat.min_eq_right hle]
  by_cases hinside : Inside size pos n
  · simp [hinside]
  · simp [hinside]

/-- Reads and writes at any position, with all of the user buffer accessible, do what
they should exactly when they are harmless. -/
theorem generic_clamped_iff (ramdisk : ℕ → UInt8) (pos : ℤ) (hlow : 0 ≤ pos)
    (hhigh : pos < 9223372036854775808) :
    (∀ lbuf, lbuf ≤ MAX_RW_COUNT →
      ((∃ r, mycdrvGenericRead ramdisk lbuf pos lbuf = .ok r ∧
        Clamped RAMDISK_SIZE lbuf pos r.ret r.pos) ↔ Harmless RAMDISK_SIZE lbuf pos)) ∧
    (∀ buf : List UInt8, buf.length ≤ MAX_RW_COUNT →
      ((∃ r, mycdrvGenericWrite ramdisk buf pos buf.length = .ok r ∧
        Clamped RAMDISK_SIZE buf.length pos r.ret r.pos) ↔
          Harmless RAMDISK_SIZE buf.length pos)) ∧
    ∀ lbuf, lbuf ≤ MAX_RW_COUNT →
      ((∃ r, AllInterrupt.mycdrvRead ramdisk lbuf pos lbuf = .ok r ∧
        Clamped PAGE_SIZE lbuf pos r.ret r.pos) ↔ Harmless PAGE_SIZE lbuf pos) := by
  refine ⟨fun lbuf hlbuf => ?_, fun buf hbuf => ?_, fun lbuf hlbuf => ?_⟩
  · exact ramdiskRead_clamped_iff ramdisk (by decide) hlow hhigh hlbuf
  · exact ramdiskWrite_clamped_iff ramdisk (by decide) hlow hhigh hbuf
  · exact ramdiskRead_clamped_iff ramdisk (by decide) hlow hhigh hlbuf

theorem lastByte_clamped_iff :
    ((∃ r, mycdrvGenericRead (fun _ => 0) 2 65535 2 = .ok r ∧
        Clamped RAMDISK_SIZE 2 65535 r.ret r.pos) ↔ Harmless RAMDISK_SIZE 2 65535) ∧
      ((∃ r, mycdrvGenericWrite (fun _ => 0) [7, 8] 65535 2 = .ok r ∧
        Clamped RAMDISK_SIZE 2 65535 r.ret r.pos) ↔ Harmless RAMDISK_SIZE 2 65535) ∧
      ((∃ r, AllInterrupt.mycdrvRead (fun _ => 0) 2 65535 2 = .ok r ∧
        Clamped PAGE_SIZE 2 65535 r.ret r.pos) ↔ Harmless PAGE_SIZE 2 65535) := by
  obtain ⟨hread, hwrite, hinterrupt⟩ :=
    generic_clamped_iff (fun _ => 0) 65535 (by decide) (by decide)
  exact ⟨hread 2 (by decide), hwrite [7, 8] (by decide), hinterrupt 2 (by decide)⟩

/-- One byte past the end, a read and a write of one byte leave the ram disk. -/
theorem pastEnd_escapes :
    mycdrvGenericRead (fun _ => 0) 1 65537 1 = .error .copyOutOfBounds ∧
      mycdrvGenericWrite (fun _ => 0) [7] 65537 1 = .error .copyOutOfBounds := ⟨rfl, rfl⟩

end LddSamples.Dma

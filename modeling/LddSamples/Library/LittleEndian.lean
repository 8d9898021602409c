import LddSamples.Library.ByteMap

/-!
# Words in a byte-addressed memory

A word is its bytes, the lowest first. Words that are stored at disjoint places do not
see each other.
-/

namespace LittleEndian

open ByteMap

/-- The `w` low bytes of an integer, in two's complement. -/
def bytes : ℕ → ℤ → List UInt8
  | 0, _ => []
  | w + 1, v => UInt8.ofNat (v % 256).toNat :: bytes w (v / 256)

def value : List UInt8 → ℕ
  | [] => 0
  | b :: bs => b.toNat + 256 * value bs

@[simp] theorem bytes_length (w : ℕ) (v : ℤ) : (bytes w v).length = w := by
  induction w generalizing v with
  | zero => rfl
  | succ w ih => simp [bytes, ih]

theorem emod_mul_256 (v k : ℤ) : v % (256 * k) = v % 256 + 256 * (v / 256 % k) := by
  have hlow := Int.emod_add_mul_ediv v 256
  have hhigh := Int.emod_add_mul_ediv (v / 256) k
  have hboth := Int.emod_add_mul_ediv v (256 * k)
  rw [← Int.ediv_ediv_of_nonneg (by decide)] at hboth
  linear_combination hboth - hlow - 256 * hhigh

theorem value_bytes (w : ℕ) (v : ℤ) : (value (bytes w v) : ℤ) = v % 256 ^ w := by
  induction w generalizing v with
  | zero => simp [bytes, value]
  | succ w ih =>
      have hbyte : (UInt8.ofNat (v % 256).toNat).toNat = (v % 256).toNat := by
        rw [UInt8.toNat_ofNat']
        exact Nat.mod_eq_of_lt (by omega)
      rw [bytes, value, hbyte, pow_succ', emod_mul_256, ← ih]
      push_cast
      omega

theorem bytes_value (bs : List UInt8) : bytes bs.length (value bs) = bs := by
  induction bs with
  | nil => rfl
  | cons b bs ih =>
      have hb : b.toNat < 256 := b.toNat_lt
      have hlow : (((b.toNat + 256 * value bs : ℕ) : ℤ) % 256).toNat = b.toNat := by omega
      have hhigh : ((b.toNat + 256 * value bs : ℕ) : ℤ) / 256 = (value bs : ℕ) := by omega
      rw [List.length_cons, bytes, value, hlow, hhigh, ih, UInt8.ofNat_toNat]

/-! ## Loads and stores -/

def load (mem : ℕ → UInt8) (addr w : ℕ) : ℕ := value (window mem addr w)

def store (mem : ℕ → UInt8) (addr w : ℕ) (v : ℤ) : ℕ → UInt8 := overwrite mem addr (bytes w v)

theorem load_store (mem : ℕ → UInt8) (addr w : ℕ) (v : ℤ) :
    (load (store mem addr w v) addr w : ℤ) = v % 256 ^ w := by
  have hwindow := window_overwrite mem addr (bytes w v)
  rw [bytes_length] at hwindow
  rw [load, store, hwindow, value_bytes]

theorem load_store_of_disjoint (mem : ℕ → UInt8) {addr addr' w w' : ℕ} (v : ℤ)
    (h : addr + w ≤ addr' ∨ addr' + w' ≤ addr) :
    load (store mem addr w v) addr' w' = load mem addr' w' := by
  have hsame : window (store mem addr w v) addr' w' = window mem addr' w' := by
    apply List.map_congr_left
    intro i hi
    have hi : i < w' := List.mem_range.mp hi
    rcases h with hbefore | hafter
    · exact overwrite_of_ge mem (by rw [bytes_length]; omega)
    · exact overwrite_of_lt mem _ (by omega)
  rw [load, load, hsame]

theorem store_load (mem : ℕ → UInt8) (addr w : ℕ) :
    bytes w (load mem addr w) = window mem addr w := by
  have hbytes := bytes_value (window mem addr w)
  rwa [window_length] at hbytes

end LittleEndian

import LddSamples.Library.ByteMap

/-!
# A sparse file stored in pieces of one size

The file has a size, a value at every offset, and a set of pieces that have been
materialised. One call never crosses the end of a piece. A piece that was never
materialised reads as nothing at all, not as default values.
-/

namespace SparseFile

open ByteMap

structure File (α : Type*) where
  size : ℕ
  value : ℕ → α
  present : ℕ → Bool

variable {α : Type*}

@[ext] theorem File.ext_fields {a b : File α} (hsize : a.size = b.size)
    (hvalue : ∀ i, a.value i = b.value i) (hpresent : ∀ k, a.present k = b.present k) :
    a = b := by
  cases a
  cases b
  simp only [File.mk.injEq]
  exact ⟨hsize, funext hvalue, funext hpresent⟩

def empty (z : α) : File α := ⟨0, fun _ => z, fun _ => false⟩

/-- What is left of the piece of size `q` that holds offset `p`. -/
def room (q p : ℕ) : ℕ := q - p % q

theorem room_pos {q : ℕ} (hq : 0 < q) (p : ℕ) : 0 < room q p := by
  have := Nat.mod_lt p hq
  unfold room
  omega

theorem room_le (q p : ℕ) : room q p ≤ q := Nat.sub_le ..

def writeCount (q p n : ℕ) : ℕ := min n (room q p)

/-- A write stores up to the end of the piece, materialises it, and moves the
end of the file if it reaches past it. -/
def write (q : ℕ) (f : File α) (p : ℕ) (data : List α) : File α where
  size := max f.size (p + writeCount q p data.length)
  value := overwrite f.value p (data.take (writeCount q p data.length))
  present k := k == p / q || f.present k

def readCount (q : ℕ) (f : File α) (p n : ℕ) : ℕ :=
  if f.size < p ∨ f.present (p / q) = false then 0 else min n (min (f.size - p) (room q p))

def read (q : ℕ) (f : File α) (p n : ℕ) : List α := window f.value p (readCount q f p n)

@[simp] theorem read_length (q : ℕ) (f : File α) (p n : ℕ) :
    (read q f p n).length = readCount q f p n := window_length ..

theorem writeCount_le (q p n : ℕ) : writeCount q p n ≤ n := Nat.min_le_left ..

theorem writeCount_pos {q : ℕ} (hq : 0 < q) (p : ℕ) {n : ℕ} (hn : 0 < n) :
    0 < writeCount q p n := by
  have := room_pos hq p
  unfold writeCount
  omega

theorem div_eq_of_lt_writeCount {q : ℕ} (hq : 0 < q) {p n i : ℕ}
    (hi : i < writeCount q p n) : (p + i) / q = p / q := by
  have hmod := Nat.mod_lt p hq
  have hlt : p % q + i < q := by
    unfold writeCount room at hi
    omega
  have hsplit : p + i = q * (p / q) + (p % q + i) := by
    have := Nat.div_add_mod p q
    omega
  rw [hsplit, Nat.mul_add_div hq, Nat.div_eq_of_lt hlt, Nat.add_zero]

theorem readCount_pos {q : ℕ} (hq : 0 < q) {f : File α} {p n : ℕ} (hn : 0 < n)
    (hsize : p < f.size) (hpresent : f.present (p / q) = true) : 0 < readCount q f p n := by
  have := room_pos hq p
  rw [readCount, if_neg (by simp [hpresent, Nat.le_of_lt hsize])]
  omega

theorem readCount_le (q : ℕ) (f : File α) (p n : ℕ) : readCount q f p n ≤ n := by
  unfold readCount
  split <;> omega

/-! ## Histories of writes -/

/-- The file after a history of writes, newest first, over a default value. -/
def ofLog (q : ℕ) (z : α) (log : List (ℕ × List α)) : File α :=
  log.foldr (fun t f => write q f t.1 t.2) (empty z)

/-- The stretches that a history of write requests really stored. -/
def stored (q : ℕ) (log : List (ℕ × List α)) : List (ℕ × List α) :=
  log.map fun t => (t.1, t.2.take (writeCount q t.1 t.2.length))

theorem ofLog_value (q : ℕ) (z : α) (log : List (ℕ × List α)) :
    (ofLog q z log).value = lastStored (fun _ => z) (stored q log) := by
  induction log with
  | nil => rfl
  | cons t older ih =>
      have hstep : (ofLog q z (t :: older)).value =
          overwrite (ofLog q z older).value t.1 (t.2.take (writeCount q t.1 t.2.length)) := rfl
      rw [hstep, ih]
      exact (lastStored_cons _ _ _ _).symm

theorem ofLog_size (q : ℕ) (z : α) (log : List (ℕ × List α)) :
    (ofLog q z log).size = ((stored q log).map fun t => t.1 + t.2.length).foldr max 0 := by
  induction log with
  | nil => rfl
  | cons t older ih =>
      have hstep : (ofLog q z (t :: older)).size =
          max (ofLog q z older).size (t.1 + writeCount q t.1 t.2.length) := rfl
      have hlen : (t.2.take (writeCount q t.1 t.2.length)).length =
          writeCount q t.1 t.2.length := by
        rw [List.length_take, Nat.min_eq_left (writeCount_le ..)]
      have hend : ((stored q (t :: older)).map fun t => t.1 + t.2.length) =
          (t.1 + writeCount q t.1 t.2.length) ::
            ((stored q older).map fun t => t.1 + t.2.length) := by
        simp [stored, hlen]
      rw [hstep, hend, List.foldr_cons, ih, Nat.max_comm]

theorem ofLog_present (q : ℕ) (z : α) (log : List (ℕ × List α)) (k : ℕ) :
    (ofLog q z log).present k = log.any fun t => k == t.1 / q := by
  induction log with
  | nil => rfl
  | cons t older ih =>
      have hstep : (ofLog q z (t :: older)).present k =
          (k == t.1 / q || (ofLog q z older).present k) := rfl
      rw [hstep, ih, List.any_cons]

end SparseFile

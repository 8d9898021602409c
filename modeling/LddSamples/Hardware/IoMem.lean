import LddSamples.Kernel.Basic
import LddSamples.Library.ByteMap
import LddSamples.Library.Runs

/-!
# lab2_memory: the video memory byte by byte

`iomem_read` and `iomem_write` move one byte at a time between the window that is mapped
at `vram` and the user. The user accesses at offset `k` and beyond fail, and a call that
meets one returns an error behind the bytes that it has moved.
-/

namespace LddSamples.Hardware.IoMem

open Kernel CArith Outcome ByteMap

def IOMEM_SIZE : ℕ := 0x00020000

theorem IOMEM_SIZE_eq : IOMEM_SIZE = 131072 := rfl

/-- The value returned, `*off` afterwards, and what the user buffer received. -/
structure ReadResult where
  ret : ℤ
  off : ℤ
  out : List UInt8

structure WriteResult where
  ret : ℤ
  off : ℤ
  vram : ℕ → UInt8

/-- `if (*off + len > IOMEM_SIZE) len = IOMEM_SIZE - *off;`, in 64 unsigned bits. -/
def clampLen (off : ℤ) (len : ℕ) : ℕ :=
  if (toUInt64 off + len) % 18446744073709551616 > IOMEM_SIZE then toUInt64 (IOMEM_SIZE - off)
  else len

/-- `for (i = 0; i < len; i++)` from `i` on: what the user receives, and whether the loop
comes to its end. The counter is an `int` and is compared as a `size_t`. -/
def readLoop (vram : ℕ → UInt8) (off : ℤ) (len k : ℕ) :
    ℕ → ℤ → Except Fault (List UInt8 × Bool)
  | 0, _ => .ok ([], true)
  | rounds + 1, i =>
      if toUInt64 i < len then do
        require .copyOutOfBounds (Inside IOMEM_SIZE (off + i) 1)
        if i < k then do
          let (out, done) ← readLoop vram off len k rounds (toInt32 (i + 1))
          .ok (vram (off + i).toNat :: out, done)
        else .ok ([], false)
      else .ok ([], true)

/-- The loop of the write; a byte is fetched before it is stored. -/
def writeLoop (buf : List UInt8) (off : ℤ) (len k : ℕ) :
    ℕ → ℤ → (ℕ → UInt8) → Except Fault ((ℕ → UInt8) × Bool)
  | 0, _, vram => .ok (vram, true)
  | rounds + 1, i, vram =>
      if toUInt64 i < len then
        if i < k then do
          require .copyOutOfBounds (Inside IOMEM_SIZE (off + i) 1)
          writeLoop buf off len k rounds (toInt32 (i + 1))
            (Function.update vram (off + i).toNat (buf.getD i.toNat 0))
        else .ok (vram, false)
      else .ok (vram, true)

def iomemRead (vram : ℕ → UInt8) (len : ℕ) (off : ℤ) (k : ℕ) : Except Fault ReadResult :=
  if off ≥ IOMEM_SIZE then .ok ⟨0, off, []⟩
  else do
    let len := clampLen off len
    let (out, done) ← readLoop vram off len k len 0
    if done then .ok ⟨len, toInt64 (off + len), out⟩ else .ok ⟨-EFAULT, off, out⟩

def iomemWrite (vram : ℕ → UInt8) (buf : List UInt8) (off : ℤ) (k : ℕ) :
    Except Fault WriteResult :=
  if off ≥ IOMEM_SIZE then .ok ⟨0, off, vram⟩
  else do
    let len := clampLen off buf.length
    let (vram, done) ← writeLoop buf off len k len 0 vram
    if done then .ok ⟨len, toInt64 (off + len), vram⟩ else .ok ⟨-EFAULT, off, vram⟩

/-! ## One call -/

variable {vram content : ℕ → UInt8} {buf : List UInt8} {len k p i rounds : ℕ}

/-- What there is to move at offset `p`. -/
def room (p len : ℕ) : ℕ := min len (IOMEM_SIZE - p)

theorem clampLen_eq (hp : p < IOMEM_SIZE) (hlen : len ≤ MAX_RW_COUNT) :
    clampLen p len = room p len := by
  have hsize := IOMEM_SIZE_eq
  have hmax := MAX_RW_COUNT_eq
  have hrest : toUInt64 ((IOMEM_SIZE : ℤ) - p) = IOMEM_SIZE - p := by
    rw [← Int.ofNat_sub hp.le]
    exact toUInt64_natCast (by omega)
  rw [clampLen, room, toUInt64_natCast (by omega), Nat.mod_eq_of_lt (by omega), hrest]
  split <;> omega

theorem counter_succ (hi : i < IOMEM_SIZE) : toInt32 ((i : ℤ) + 1) = (i + 1 : ℕ) := by
  have hsize := IOMEM_SIZE_eq
  rw [toInt32_of_mem (by omega) (by unfold INT_MAX; omega), Nat.cast_add, Nat.cast_one]

/-- From `i` on the loop moves the bytes up to the end or up to the fault. -/
theorem readLoop_eq (vram : ℕ → UInt8) (hfit : p + len ≤ IOMEM_SIZE) (hi : i + rounds = len)
    (hk : i ≤ k) :
    readLoop vram p len k rounds i =
      .ok (window vram (p + i) (min rounds (k - i)), decide (len ≤ k)) := by
  have hsize := IOMEM_SIZE_eq
  induction rounds generalizing i with
  | zero =>
      have hdone : len ≤ k := by omega
      simp [readLoop, hdone]
  | succ rounds ih =>
      have hmore : toUInt64 (i : ℤ) < len := by
        rw [toUInt64_natCast (by omega)]
        omega
      have hinside : Inside IOMEM_SIZE ((p : ℤ) + i) 1 := .inr ⟨by omega, by omega⟩
      have haddr : ((p : ℤ) + i).toNat = p + i := by omega
      rw [readLoop, if_pos hmore, require_of hinside, ok_bind, counter_succ (by omega), haddr]
      split
      · next hbefore =>
          have hmin : min (rounds + 1) (k - i) = 1 + min rounds (k - (i + 1)) := by omega
          rw [ih (by omega) (by omega), ok_bind, hmin, window_add]
          rfl
      · next hfault =>
          have hzero : min (rounds + 1) (k - i) = 0 := by omega
          have hundone : ¬ len ≤ k := by omega
          rw [hzero, window_zero, decide_eq_false hundone]

theorem writeLoop_eq (vram : ℕ → UInt8) (hfit : p + len ≤ IOMEM_SIZE) (hbuf : len ≤ buf.length)
    (hi : i + rounds = len) (hk : i ≤ k) :
    writeLoop buf p len k rounds i vram =
      .ok (overwrite vram (p + i) ((buf.drop i).take (min rounds (k - i))),
        decide (len ≤ k)) := by
  have hsize := IOMEM_SIZE_eq
  induction rounds generalizing i vram with
  | zero =>
      have hdone : len ≤ k := by omega
      simp [writeLoop, hdone]
  | succ rounds ih =>
      have hmore : toUInt64 (i : ℤ) < len := by
        rw [toUInt64_natCast (by omega)]
        omega
      have hinside : Inside IOMEM_SIZE ((p : ℤ) + i) 1 := .inr ⟨by omega, by omega⟩
      have haddr : ((p : ℤ) + i).toNat = p + i := by omega
      rw [writeLoop, if_pos hmore]
      split
      · next hbefore =>
          have hmin : min (rounds + 1) (k - i) = min rounds (k - (i + 1)) + 1 := by omega
          rw [require_of hinside, ok_bind, counter_succ (by omega), haddr, Int.toNat_natCast,
            ih _ (by omega) (by omega), hmin, take_drop_succ buf 0 (by omega),
            ← overwrite_singleton]
          exact congrArg (fun f => Except.ok (f, _)) (overwrite_append vram (p + i) _ _)
      · next hfault =>
          have hzero : min (rounds + 1) (k - i) = 0 := by omega
          have hundone : ¬ len ≤ k := by omega
          rw [hzero, List.take_zero, overwrite_nil, decide_eq_false hundone]

theorem toInt64_moved (hp : p < 9223372036854775808) :
    toInt64 ((p : ℤ) + room p len) = (p + room p len : ℕ) := by
  have hsize := IOMEM_SIZE_eq
  unfold room
  rw [toInt64_of_mem (by omega) (by omega), Nat.cast_add]

theorem iomemRead_eq (vram : ℕ → UInt8) (hp : p < 9223372036854775808)
    (hlen : len ≤ MAX_RW_COUNT) (k : ℕ) :
    iomemRead vram len p k =
      if room p len ≤ k then .ok ⟨room p len, (p + room p len : ℕ), window vram p (room p len)⟩
      else .ok ⟨-EFAULT, p, window vram p k⟩ := by
  by_cases hend : IOMEM_SIZE ≤ p
  · have hzero : room p len = 0 := by
      unfold room
      omega
    rw [iomemRead, if_pos (by exact_mod_cast hend), hzero, if_pos (Nat.zero_le k)]
    rfl
  · have hlt : p < IOMEM_SIZE := Nat.not_le.mp hend
    have hfit : p + room p len ≤ IOMEM_SIZE := by
      unfold room
      omega
    have hloop := readLoop_eq vram hfit (Nat.zero_add (room p len)) (Nat.zero_le k)
    simp only [Nat.cast_zero, Nat.add_zero, Nat.sub_zero] at hloop
    rw [iomemRead, if_neg (by exact_mod_cast hend), clampLen_eq hlt hlen]
    simp only [hloop, ok_bind, toInt64_moved hp, decide_eq_true_iff]
    split
    · next hall => rw [Nat.min_eq_left hall]
    · next hfault => rw [Nat.min_eq_right (Nat.not_le.mp hfault).le]

theorem iomemWrite_eq (vram : ℕ → UInt8) (hp : p < 9223372036854775808)
    (hbuf : buf.length ≤ MAX_RW_COUNT) (k : ℕ) :
    iomemWrite vram buf p k =
      if room p buf.length ≤ k then
        .ok ⟨room p buf.length, (p + room p buf.length : ℕ),
          overwrite vram p (buf.take (room p buf.length))⟩
      else .ok ⟨-EFAULT, p, overwrite vram p (buf.take k)⟩ := by
  by_cases hend : IOMEM_SIZE ≤ p
  · have hzero : room p buf.length = 0 := by
      unfold room
      omega
    rw [iomemWrite, if_pos (by exact_mod_cast hend), hzero, if_pos (Nat.zero_le k), List.take_zero,
      overwrite_nil]
    rfl
  · have hlt : p < IOMEM_SIZE := Nat.not_le.mp hend
    have hfit : p + room p buf.length ≤ IOMEM_SIZE := by
      unfold room
      omega
    have hloop := writeLoop_eq vram hfit (Nat.min_le_left _ _)
      (Nat.zero_add (room p buf.length)) (Nat.zero_le k)
    simp only [Nat.cast_zero, Nat.add_zero, Nat.sub_zero, List.drop_zero] at hloop
    rw [iomemWrite, if_neg (by exact_mod_cast hend), clampLen_eq hlt hbuf]
    simp only [hloop, ok_bind, toInt64_moved hp, decide_eq_true_iff]
    split
    · next hall => rw [Nat.min_eq_left hall]
    · next hfault => rw [Nat.min_eq_right (Nat.not_le.mp hfault).le]

/-! ## Runs -/

/-- `history` is what has been stored so far, newest first; no call reads it. -/
structure State where
  vram : ℕ → UInt8
  history : List (ℕ × List UInt8)

/-- Calls at any offsets, with the length of the user buffer that is accessible. -/
inductive Call
  | read (off len k : ℕ)
  | write (off : ℕ) (buf : List UInt8) (k : ℕ)

structure Result where
  ret : ℤ
  off : ℤ
  out : List UInt8

/-- How many bytes a write stores before it ends. -/
def moved (off len k : ℕ) : ℕ := min (room off len) k

def call (s : State) : Call → Except Fault (Result × State)
  | .read off len k => do
      let r ← iomemRead s.vram len off k
      .ok (⟨r.ret, r.off, r.out⟩, s)
  | .write off buf k => do
      let r ← iomemWrite s.vram buf off k
      .ok (⟨r.ret, r.off, []⟩, ⟨r.vram, (off, buf.take (moved off buf.length k)) :: s.history⟩)

def step (s : State) (c : Call) : Except Fault State := do
  let (_, s) ← call s c
  .ok s

def initial (content : ℕ → UInt8) : State := ⟨content, []⟩

/-- A `loff_t` that is not negative, and a length that the VFS lets through. -/
def Call.Admissible : Call → Prop
  | .read off len _ => off < 9223372036854775808 ∧ len ≤ MAX_RW_COUNT
  | .write off buf _ => off < 9223372036854775808 ∧ buf.length ≤ MAX_RW_COUNT

/-- A call that moves all of `n` bytes returns their number and goes on behind them; one
that faults returns the error and stays. -/
def Returns (off n k : ℕ) (r : Result) : Prop :=
  (n ≤ k → r.ret = n ∧ r.off = (off + n : ℕ)) ∧ (k < n → r.ret = -EFAULT ∧ r.off = off)

/-- The window is an array of bytes. -/
def Answers (content : ℕ → UInt8) (s : State) (r : Result) (s' : State) : Call → Prop
  | .read off len k => Returns off (room off len) k r ∧ s' = s ∧
      r.out = window (lastStored content s.history) off (moved off len k)
  | .write off buf k => Returns off (room off buf.length) k r ∧
      s'.vram = overwrite s.vram off (buf.take (moved off buf.length k)) ∧
      s'.history = (off, buf.take (moved off buf.length k)) :: s.history

/-- The bytes of the window are those stored last, and nothing else has changed. -/
structure Sound (content : ℕ → UInt8) (s : State) : Prop where
  vram : s.vram = lastStored content s.history
  outside : ∀ j, IOMEM_SIZE ≤ j → s.vram j = content j

theorem initial_sound (content : ℕ → UInt8) : Sound content (initial content) where
  vram := rfl
  outside _ _ := rfl

variable {s s' : State} {c : Call}

theorem read_answers (hs : Sound content s) (hp : p < 9223372036854775808)
    (hlen : len ≤ MAX_RW_COUNT) (k : ℕ) :
    ∃ r, call s (.read p len k) = .ok (r, s) ∧ Answers content s r s (.read p len k) := by
  have hread := iomemRead_eq s.vram hp hlen k
  simp only [call]
  by_cases hall : room p len ≤ k
  · rw [hread, if_pos hall]
    refine ⟨_, rfl, ⟨fun _ => ⟨rfl, rfl⟩, fun hfault => by omega⟩, rfl, ?_⟩
    rw [← hs.vram, moved, min_eq_left hall]
  · rw [hread, if_neg hall]
    refine ⟨_, rfl, ⟨fun hle => absurd hle hall, fun _ => ⟨rfl, rfl⟩⟩, rfl, ?_⟩
    rw [← hs.vram, moved, min_eq_right (Nat.not_le.mp hall).le]

theorem write_answers (content : ℕ → UInt8) (s : State) (hp : p < 9223372036854775808)
    (hbuf : buf.length ≤ MAX_RW_COUNT) (k : ℕ) :
    ∃ r s', call s (.write p buf k) = .ok (r, s') ∧
      Answers content s r s' (.write p buf k) := by
  have hwrite := iomemWrite_eq s.vram hp hbuf k
  simp only [call]
  by_cases hall : room p buf.length ≤ k
  · rw [hwrite, if_pos hall]
    refine ⟨_, _, rfl, ⟨fun _ => ⟨rfl, rfl⟩, fun hfault => by omega⟩, ?_, rfl⟩
    rw [moved, min_eq_left hall]
  · rw [hwrite, if_neg hall]
    refine ⟨_, _, rfl, ⟨fun hle => absurd hle hall, fun _ => ⟨rfl, rfl⟩⟩, ?_, rfl⟩
    rw [moved, min_eq_right (Nat.not_le.mp hall).le]

/-- No write reaches a byte behind the window. -/
theorem write_outside (vram : ℕ → UInt8) (buf : List UInt8) (p k : ℕ) {j : ℕ}
    (hj : IOMEM_SIZE ≤ j) :
    overwrite vram p (buf.take (moved p buf.length k)) j = vram j := by
  by_cases hp : p < IOMEM_SIZE
  · refine overwrite_of_ge _ ?_
    rw [List.length_take]
    unfold moved room
    omega
  · have hzero : moved p buf.length k = 0 := by
      unfold moved room
      omega
    rw [hzero, List.take_zero, overwrite_nil]

theorem call_answers (hs : Sound content s) (hc : c.Admissible) :
    ∃ r s', call s c = .ok (r, s') ∧ Answers content s r s' c ∧ Sound content s' := by
  cases c with
  | read off len k =>
      obtain ⟨r, hcall, hanswer⟩ := read_answers hs hc.1 hc.2 k
      exact ⟨r, s, hcall, hanswer, hs⟩
  | write off buf k =>
      obtain ⟨r, s', hcall, hanswer⟩ := write_answers content s hc.1 hc.2 k
      obtain ⟨-, hvram, hhistory⟩ := id hanswer
      refine ⟨r, s', hcall, hanswer, ?_, fun j hj => ?_⟩
      · rw [hvram, hhistory, lastStored_cons, hs.vram]
      · rw [hvram, write_outside s.vram buf off k hj, hs.outside j hj]

theorem step_sound (hs : Sound content s) (hc : c.Admissible) :
    ∃ s', step s c = .ok s' ∧ Sound content s' := by
  obtain ⟨r, s', hcall, -, hs'⟩ := call_answers hs hc
  exact ⟨s', by simp only [step, hcall, ok_bind], hs'⟩

theorem exec_sound (hs : Sound content s) {calls : List Call}
    (hcalls : ∀ c ∈ calls, c.Admissible) :
    ∃ s', Runs.exec step s calls = .ok s' ∧ Sound content s' := by
  induction calls generalizing s with
  | nil => exact ⟨s, rfl, hs⟩
  | cons c calls ih =>
      obtain ⟨t, hstep, ht⟩ := step_sound hs (hcalls c List.mem_cons_self)
      obtain ⟨s', hrun, hs'⟩ := ih ht fun d hd => hcalls d (List.mem_cons_of_mem _ hd)
      exact ⟨s', by rw [Runs.exec_cons, hstep, ok_bind, hrun], hs'⟩

/-! ## Transfers in chunks -/

/-- Reads one after the other, each where the one before it ended: the bytes moved in all,
the offset, and what the user received. -/
def readAll (vram : ℕ → UInt8) (off : ℤ) : List ℕ → Except Fault (ℤ × ℤ × List UInt8)
  | [] => .ok (0, off, [])
  | len :: lens => do
      let r ← iomemRead vram len off len
      let (ret, off, out) ← readAll vram r.off lens
      .ok (r.ret + ret, off, r.out ++ out)

def writeAll (vram : ℕ → UInt8) (off : ℤ) :
    List (List UInt8) → Except Fault (ℤ × ℤ × (ℕ → UInt8))
  | [] => .ok (0, off, vram)
  | buf :: bufs => do
      let r ← iomemWrite vram buf off buf.length
      let (ret, off, vram) ← writeAll r.vram r.off bufs
      .ok (r.ret + ret, off, vram)

theorem room_le (p len : ℕ) : room p len ≤ len := Nat.min_le_left ..

theorem room_add (p m n : ℕ) : room p (m + n) = room p m + room (p + room p m) n := by
  unfold room
  omega

theorem room_lt (hp : p < 9223372036854775808) (len : ℕ) :
    p + room p len < 9223372036854775808 := by
  have hsize := IOMEM_SIZE_eq
  unfold room
  omega

/-- What fits of two blocks is what fits of the first, and then of the second. -/
theorem take_room_append (p : ℕ) (xs ys : List UInt8) :
    (xs ++ ys).take (room p (xs.length + ys.length)) =
      xs.take (room p xs.length) ++ ys.take (room (p + room p xs.length) ys.length) := by
  rw [room_add, List.take_append]
  by_cases hall : room p xs.length = xs.length
  · rw [hall, Nat.add_sub_cancel_left, List.take_of_length_le (Nat.le_add_right ..),
      List.take_length]
  · have hless : room p xs.length ≤ xs.length := room_le ..
    have hnone : room (p + room p xs.length) ys.length = 0 := by
      unfold room at *
      omega
    rw [hnone, Nat.add_zero, Nat.sub_eq_zero_of_le hless]

theorem readAll_eq (vram : ℕ → UInt8) (hp : p < 9223372036854775808) {lens : List ℕ}
    (hlens : ∀ len ∈ lens, len ≤ MAX_RW_COUNT) :
    readAll vram p lens = .ok (room p lens.sum, (p + room p lens.sum : ℕ),
      window vram p (room p lens.sum)) := by
  induction lens generalizing p with
  | nil => simp [readAll, room]
  | cons len lens ih =>
      have hread := iomemRead_eq vram hp (hlens len List.mem_cons_self) len
      rw [if_pos (room_le p len)] at hread
      have hrest := ih (room_lt hp len) fun n hn => hlens n (List.mem_cons_of_mem _ hn)
      rw [readAll, hread, ok_bind, hrest, ok_bind, List.sum_cons, room_add, window_add]
      simp only [Nat.cast_add, add_assoc]

theorem writeAll_eq (vram : ℕ → UInt8) (hp : p < 9223372036854775808) {bufs : List (List UInt8)}
    (hbufs : ∀ buf ∈ bufs, buf.length ≤ MAX_RW_COUNT) :
    writeAll vram p bufs = .ok (room p bufs.flatten.length,
      (p + room p bufs.flatten.length : ℕ),
      overwrite vram p (bufs.flatten.take (room p bufs.flatten.length))) := by
  induction bufs generalizing p vram with
  | nil => simp [writeAll, room]
  | cons buf bufs ih =>
      have hwrite := iomemWrite_eq vram hp (hbufs buf List.mem_cons_self) buf.length
      rw [if_pos (room_le p buf.length)] at hwrite
      have hrest := ih (overwrite vram p (buf.take (room p buf.length))) (room_lt hp buf.length)
        fun b hb => hbufs b (List.mem_cons_of_mem _ hb)
      have hlength : (buf.take (room p buf.length)).length = room p buf.length :=
        List.length_take_of_le (room_le ..)
      have hstored := overwrite_append vram p (buf.take (room p buf.length))
        (bufs.flatten.take (room (p + room p buf.length) bufs.flatten.length))
      rw [hlength, ← take_room_append] at hstored
      rw [writeAll, hwrite, ok_bind, hrest, ok_bind, List.flatten_cons, List.length_append,
        hstored, room_add]
      simp only [Nat.cast_add, add_assoc]

/-- However a transfer is cut into pieces, its bytes, their number and the offset behind
them are the same. -/
structure ChunkIndependent (s : State) : Prop where
  read : ∀ off ms ns, off < 9223372036854775808 → (∀ n ∈ ms, n ≤ MAX_RW_COUNT) →
    (∀ n ∈ ns, n ≤ MAX_RW_COUNT) → ms.sum = ns.sum →
    ∃ r, readAll s.vram (off : ℕ) ms = .ok r ∧ readAll s.vram (off : ℕ) ns = .ok r
  write : ∀ off xs ys, off < 9223372036854775808 → (∀ x ∈ xs, x.length ≤ MAX_RW_COUNT) →
    (∀ y ∈ ys, y.length ≤ MAX_RW_COUNT) → xs.flatten = ys.flatten →
    ∃ r, writeAll s.vram (off : ℕ) xs = .ok r ∧ writeAll s.vram (off : ℕ) ys = .ok r

theorem chunkIndependent (s : State) : ChunkIndependent s where
  read _ _ _ hoff hms hns hsum :=
    ⟨_, readAll_eq s.vram hoff hms, hsum ▸ readAll_eq s.vram hoff hns⟩
  write _ _ _ hoff hxs hys hflatten :=
    ⟨_, writeAll_eq s.vram hoff hxs, hflatten ▸ writeAll_eq s.vram hoff hys⟩

/-- Every run goes through. Behind it the window holds what was stored last, nothing
outside it has changed, every further call does what `Answers` says, and transfers can be
cut into pieces. -/
theorem iomem_runs_answer (content : ℕ → UInt8) (calls : List Call)
    (hcalls : ∀ c ∈ calls, c.Admissible) :
    ∃ s, Runs.exec step (initial content) calls = .ok s ∧ Sound content s ∧
      (∀ c : Call, c.Admissible → ∃ r s', call s c = .ok (r, s') ∧ Answers content s r s' c) ∧
      ChunkIndependent s := by
  obtain ⟨s, hrun, hs⟩ := exec_sound (initial_sound content) hcalls
  refine ⟨s, hrun, hs, fun c hc => ?_, chunkIndependent s⟩
  obtain ⟨r, s', hcall, hanswer, -⟩ := call_answers hs hc
  exact ⟨r, s', hcall, hanswer⟩

/-- A write over the end of the window, and a read that meets a bad page. -/
def overEnd : List Call := [.write 131070 [1, 2, 3] 3, .read 131069 5 2]

theorem overEnd_answers :
    ∃ s, Runs.exec step (initial fun _ => 0) overEnd = .ok s ∧ Sound (fun _ => 0) s ∧
      (∀ c : Call, c.Admissible → ∃ r s', call s c = .ok (r, s') ∧
        Answers (fun _ => 0) s r s' c) ∧ ChunkIndependent s :=
  iomem_runs_answer (fun _ => 0) overEnd fun c hc => by
    rcases List.mem_pair.mp hc with rfl | rfl
    · exact ⟨by decide, by decide⟩
    · exact ⟨by decide, by decide⟩

end LddSamples.Hardware.IoMem

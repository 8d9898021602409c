import LddSamples.Library.CArith

/-!
# lab4_serial: framing and decoding of mouse packets

The handler takes one byte at each interrupt. It waits for a byte with bit 6 set,
collects that byte and the next two, whatever they are, and moves the pointer.
-/

namespace LddSamples.Hardware.SerialMouse

open CArith

structure State where
  byteIn : ℕ → UInt8
  nbytesIn : ℕ
  interruptNumber : ℤ
  xpos : ℤ
  ypos : ℤ

def initial : State := ⟨fun _ => 0, 0, 0, 0, 0⟩

/-- `(signed char)(((byte_in[0] & 0x03) << 6) | (byte_in[1] & 0x3f))`. -/
def dxOf (b₀ b₁ : UInt8) : ℤ :=
  toInt8 (((b₀.toNat &&& 0x03) <<< 6 ||| (b₁.toNat &&& 0x3f) : ℕ) : ℤ)

/-- `(signed char)(((byte_in[0] & 0x0c) << 4) | (byte_in[2] & 0x3f))`. -/
def dyOf (b₀ b₂ : UInt8) : ℤ :=
  toInt8 (((b₀.toNat &&& 0x0c) <<< 4 ||| (b₂.toNat &&& 0x3f) : ℕ) : ℤ)

/-- The byte is stored, unless it should begin a packet and does not look like it. -/
def State.accept (s : State) (byte : UInt8) : State :=
  if 0 < s.nbytesIn ∨ byte &&& 0x40 ≠ 0 then
    { s with
      byteIn := Function.update s.byteIn s.nbytesIn byte
      nbytesIn := s.nbytesIn + 1 }
  else s

def State.complete (s : State) : State :=
  if s.nbytesIn = 3 then
    { s with
      xpos := toInt32 (s.xpos + dxOf (s.byteIn 0) (s.byteIn 1))
      ypos := toInt32 (s.ypos + dyOf (s.byteIn 0) (s.byteIn 2))
      nbytesIn := 0 }
  else s

def myInterrupt (s : State) (byte : UInt8) : State :=
  ({ s with interruptNumber := toInt32 (s.interruptNumber + 1) }.accept byte).complete

def feed (s : State) (bytes : List UInt8) : State := bytes.foldl myInterrupt s

/-- Three bytes that encode a movement: only the first has bit 6 set, and its low bits
are the two high bits of each coordinate. -/
structure Packet where
  dx : ℤ
  dy : ℤ
  dx_mem : -128 ≤ dx ∧ dx ≤ 127
  dy_mem : -128 ≤ dy ∧ dy ≤ 127
  b₀ : UInt8
  b₁ : UInt8
  b₂ : UInt8
  first : b₀ &&& 0x40 ≠ 0
  second : b₁ &&& 0x40 = 0
  third : b₂ &&& 0x40 = 0
  dx_high : ((b₀.toNat % 4 : ℕ) : ℤ) = dx % 256 / 64
  dx_low : ((b₁.toNat % 64 : ℕ) : ℤ) = dx % 64
  dy_high : ((b₀.toNat / 4 % 4 : ℕ) : ℤ) = dy % 256 / 64
  dy_low : ((b₂.toNat % 64 : ℕ) : ℤ) = dy % 64

def Packet.bytes (p : Packet) : List UInt8 := [p.b₀, p.b₁, p.b₂]

def bytesOf (packets : List Packet) : List UInt8 := packets.flatMap Packet.bytes

/-- From `s` on the handler is in step with the packets: the counter is 0 exactly at
their ends, and each of them moves the pointer by its movement. -/
structure DecodesExactly (s : State) (packets : List Packet) : Prop where
  framing : ∀ k ≤ (bytesOf packets).length,
    (feed s ((bytesOf packets).take k)).nbytesIn = 0 ↔ 3 ∣ k
  xpos : ∀ pre, pre <+: packets →
    (feed s (bytesOf pre)).xpos = toInt32 (s.xpos + (pre.map Packet.dx).sum)
  ypos : ∀ pre, pre <+: packets →
    (feed s (bytesOf pre)).ypos = toInt32 (s.ypos + (pre.map Packet.dy).sum)

@[simp] theorem feed_nil (s : State) : feed s [] = s := rfl

@[simp] theorem feed_cons (s : State) (b : UInt8) (bytes : List UInt8) :
    feed s (b :: bytes) = feed (myInterrupt s b) bytes := rfl

theorem feed_append (s : State) (xs ys : List UInt8) :
    feed s (xs ++ ys) = feed (feed s xs) ys := List.foldl_append ..

@[simp] theorem bytesOf_cons (p : Packet) (packets : List Packet) :
    bytesOf (p :: packets) = p.bytes ++ bytesOf packets := rfl

theorem bytesOf_length (packets : List Packet) : (bytesOf packets).length = 3 * packets.length := by
  induction packets with
  | nil => rfl
  | cons p packets ih =>
      rw [bytesOf_cons, List.length_append, ih, List.length_cons]
      simp only [Packet.bytes, List.length_cons, List.length_nil]
      omega

/-! ## Decoding -/

/-- Two high bits and six low bits, put together by the handler. -/
theorem join_bits (high low : ℕ) :
    ((high &&& 0x03) <<< 6 ||| (low &&& 0x3f)) = high % 4 * 64 + low % 64 := by
  have hhigh : high &&& 0x03 = high % 4 := Nat.and_two_pow_sub_one_eq_mod high 2
  have hlow : low &&& 0x3f = low % 64 := Nat.and_two_pow_sub_one_eq_mod low 6
  rw [hhigh, hlow, ← Nat.shiftLeft_add_eq_or_of_lt (Nat.mod_lt low (by decide)), Nat.shiftLeft_eq]

theorem shift_bits (b : UInt8) : (b.toNat &&& 0x0c) <<< 4 = (b.toNat / 4 &&& 0x03) <<< 6 := by
  have hall : ∀ n : Fin 256, (n.val &&& 0x0c) <<< 4 = (n.val / 4 &&& 0x03) <<< 6 := by
    decide +kernel
  exact hall b.toFin

/-- A coordinate is put together from its two parts. -/
theorem toInt8_parts {d : ℤ} (hd : -128 ≤ d ∧ d ≤ 127) {high low : ℕ}
    (hhigh : (high : ℤ) = d % 256 / 64) (hlow : (low : ℤ) = d % 64) :
    toInt8 ((high * 64 + low : ℕ) : ℤ) = d := by
  unfold toInt8
  push_cast
  omega

theorem Packet.dxOf_eq (p : Packet) : dxOf p.b₀ p.b₁ = p.dx := by
  rw [dxOf, join_bits]
  exact toInt8_parts p.dx_mem p.dx_high p.dx_low

theorem Packet.dyOf_eq (p : Packet) : dyOf p.b₀ p.b₂ = p.dy := by
  rw [dyOf, shift_bits, join_bits]
  exact toInt8_parts p.dy_mem p.dy_high p.dy_low

/-! ## Framing -/

/-- The counter after a byte. -/
theorem myInterrupt_nbytesIn (s : State) (b : UInt8) :
    (myInterrupt s b).nbytesIn =
      if 0 < s.nbytesIn ∨ b &&& 0x40 ≠ 0 then
        if s.nbytesIn + 1 = 3 then 0 else s.nbytesIn + 1
      else if s.nbytesIn = 3 then 0 else s.nbytesIn := by
  simp only [myInterrupt, State.accept, State.complete]
  split <;> simp only <;> split <;> rfl

/-- No byte is stored outside `byte_in`, and the positions are `int`s. -/
structure InBounds (s : State) : Prop where
  counter : s.nbytesIn < 3
  xpos : toInt32 s.xpos = s.xpos
  ypos : toInt32 s.ypos = s.ypos

theorem inBounds_initial : InBounds initial := ⟨by decide, rfl, rfl⟩

variable {s : State}

theorem InBounds.step (h : InBounds s) (b : UInt8) : InBounds (myInterrupt s b) where
  counter := by
    have hlt := h.counter
    rw [myInterrupt_nbytesIn]
    split_ifs <;> omega
  xpos := by
    simp only [myInterrupt, State.accept, State.complete]
    split_ifs <;> simp only [toInt32_idem, h.xpos]
  ypos := by
    simp only [myInterrupt, State.accept, State.complete]
    split_ifs <;> simp only [toInt32_idem, h.ypos]

theorem InBounds.feed (h : InBounds s) (bytes : List UInt8) : InBounds (feed s bytes) := by
  induction bytes generalizing s with
  | nil => exact h
  | cons b bytes ih => exact ih (h.step b)

/-- A packet that begins with the counter at 0 is taken byte by byte and decoded. -/
theorem packet_aligned (hidle : s.nbytesIn = 0) (p : Packet) :
    (myInterrupt s p.b₀).nbytesIn = 1 ∧ (myInterrupt (myInterrupt s p.b₀) p.b₁).nbytesIn = 2 ∧
      (feed s p.bytes).nbytesIn = 0 ∧ (feed s p.bytes).xpos = toInt32 (s.xpos + p.dx) ∧
      (feed s p.bytes).ypos = toInt32 (s.ypos + p.dy) := by
  have hfirst : (myInterrupt s p.b₀).nbytesIn = 1 := by
    rw [myInterrupt_nbytesIn, hidle]
    simp [p.first]
  have hsecond : (myInterrupt (myInterrupt s p.b₀) p.b₁).nbytesIn = 2 := by
    rw [myInterrupt_nbytesIn, hfirst]
    simp
  refine ⟨hfirst, hsecond, ?_, ?_, ?_⟩
  · simp only [Packet.bytes, feed_cons, feed_nil]
    rw [myInterrupt_nbytesIn, hsecond]
    simp
  · simp [Packet.bytes, myInterrupt, State.accept, State.complete, hidle, p.first, p.dxOf_eq]
  · simp [Packet.bytes, myInterrupt, State.accept, State.complete, hidle, p.first, p.dyOf_eq]

/-- Wherever garbage has left the counter, one packet brings it back to 0: the bytes of
the packet that are not swallowed by the message under way do not begin another one. -/
theorem packet_resyncs (h : s.nbytesIn < 3) (p : Packet) : (feed s p.bytes).nbytesIn = 0 := by
  have hcases : s.nbytesIn = 0 ∨ s.nbytesIn = 1 ∨ s.nbytesIn = 2 := by omega
  rcases hcases with hphase | hphase | hphase
  · exact (packet_aligned hphase p).2.2.1
  · simp [Packet.bytes, myInterrupt_nbytesIn, hphase, p.third]
  · simp [Packet.bytes, myInterrupt_nbytesIn, hphase, p.second, p.third]

theorem framing_of_aligned (hidle : s.nbytesIn = 0) (packets : List Packet) {k : ℕ}
    (hk : k ≤ (bytesOf packets).length) :
    (feed s ((bytesOf packets).take k)).nbytesIn = 0 ↔ 3 ∣ k := by
  induction packets generalizing s k with
  | nil =>
      obtain rfl : k = 0 := by simpa [bytesOf] using hk
      simp [hidle]
  | cons p packets ih =>
      obtain ⟨hfirst, hsecond, hthird, -⟩ := packet_aligned hidle p
      match k with
      | 0 => simp [hidle]
      | 1 => simp [Packet.bytes, hfirst]
      | 2 => simp [Packet.bytes, hsecond]
      | k + 3 =>
          have htake : (bytesOf (p :: packets)).take (k + 3) =
              p.bytes ++ (bytesOf packets).take k := rfl
          have hlen : k ≤ (bytesOf packets).length := by
            simp only [bytesOf_length, List.length_cons] at hk ⊢
            omega
          rw [htake, feed_append, ih hthird hlen]
          omega

theorem xpos_of_aligned (hs : InBounds s) (hidle : s.nbytesIn = 0) (packets : List Packet) :
    (feed s (bytesOf packets)).xpos = toInt32 (s.xpos + (packets.map Packet.dx).sum) := by
  induction packets generalizing s with
  | nil => simp [bytesOf, hs.xpos]
  | cons p packets ih =>
      obtain ⟨-, -, hnext, hxpos, -⟩ := packet_aligned hidle p
      rw [bytesOf_cons, feed_append, ih (hs.feed p.bytes) hnext, hxpos, toInt32_toInt32_add,
        List.map_cons, List.sum_cons, add_assoc]

theorem ypos_of_aligned (hs : InBounds s) (hidle : s.nbytesIn = 0) (packets : List Packet) :
    (feed s (bytesOf packets)).ypos = toInt32 (s.ypos + (packets.map Packet.dy).sum) := by
  induction packets generalizing s with
  | nil => simp [bytesOf, hs.ypos]
  | cons p packets ih =>
      obtain ⟨-, -, hnext, -, hypos⟩ := packet_aligned hidle p
      rw [bytesOf_cons, feed_append, ih (hs.feed p.bytes) hnext, hypos, toInt32_toInt32_add,
        List.map_cons, List.sum_cons, add_assoc]

theorem decodes_of_aligned (hs : InBounds s) (hidle : s.nbytesIn = 0) (packets : List Packet) :
    DecodesExactly s packets where
  framing _ hk := framing_of_aligned hidle packets hk
  xpos pre _ := xpos_of_aligned hs hidle pre
  ypos pre _ := ypos_of_aligned hs hidle pre

/-- After any bytes the handler is in step with well-formed packets from the second one
on, and from the first one on if the counter is at 0. -/
theorem garbage_then_packets (garbage : List UInt8) (packets : List Packet) :
    (∀ first rest, packets = first :: rest →
      DecodesExactly (feed (feed initial garbage) first.bytes) rest) ∧
      ((feed initial garbage).nbytesIn = 0 → DecodesExactly (feed initial garbage) packets) := by
  have hs := inBounds_initial.feed garbage
  constructor
  · rintro first rest -
    exact decodes_of_aligned (hs.feed first.bytes) (packet_resyncs hs.counter first) rest
  · intro hidle
    exact decodes_of_aligned hs hidle packets

end LddSamples.Hardware.SerialMouse

import LddSamples.Library.CArith
import LddSamples.Library.CircBuf

/-!
# tiny_serial: sending from the transmit ring

`tiny_tx_chars` sends the urgent character alone, or up to half a hardware buffer from the
ring. The size of the ring is `2 ^ order`.
-/

namespace LddSamples.Serial.TinySerial

open CArith CircBuf

def WAKEUP_CHARS : ℕ := 256

/-- What `tiny_tx_chars` uses of a `struct uart_port`; `stopped` is `uart_tx_stopped`. -/
structure UartPort (order : ℕ) where
  xmit : Ring UInt8 order
  xChar : UInt8
  stopped : Bool
  fifosize : ℕ
  icountTx : ℕ

/-- A port, the characters written since the call began, and whether the writers have been
woken up. -/
structure Tx (order : ℕ) where
  port : UartPort order
  wrote : List UInt8
  wakeup : Bool

variable {order : ℕ}

/-- `icount.tx`, a 32-bit number. -/
def UartPort.counted (port : UartPort order) : UartPort order :=
  { port with icountTx := (port.icountTx + 1) % 4294967296 }

/-- The body of the loop, up to its test for an empty ring. -/
def Tx.writeTail (t : Tx order) : Tx order :=
  let port := { t.port with xmit := t.port.xmit.advance }
  { t with port := port.counted, wrote := t.wrote ++ [t.port.xmit.buf t.port.xmit.tail] }

/-- The loop, entered with this value of `count`; it is decremented before it is tested. -/
def writeLoop : ℕ → Tx order → Tx order
  | 0, t => t.writeTail
  | count + 1, t =>
      let t := t.writeTail
      if t.port.xmit.Empty then t else if 0 < count then writeLoop count t else t

def tinyTxChars (port : UartPort order) : Tx order :=
  if port.xChar ≠ 0 then ⟨{ port.counted with xChar := 0 }, [port.xChar], false⟩
  else if port.xmit.Empty ∨ port.stopped = true then ⟨port, [], false⟩
  else
    let t := writeLoop (port.fifosize >>> 1) ⟨port, [], false⟩
    { t with wakeup := decide (t.port.xmit.count < WAKEUP_CHARS) }

/-- Calls one after the other, with nothing put into the ring between them. -/
def calls : ℕ → UartPort order → UartPort order × List UInt8
  | 0, port => (port, [])
  | n + 1, port =>
      let t := tinyTxChars port
      let rest := calls n t.port
      (rest.1, t.wrote ++ rest.2)

/-- How many characters one call takes from a ring that is not empty. -/
def UartPort.quota (port : UartPort order) : ℕ :=
  min port.xmit.count (max 1 (port.fifosize / 2))

/-- What has to be sent: the urgent character, and what is in the ring. -/
def UartPort.owed (port : UartPort order) : List UInt8 :=
  (if port.xChar = 0 then [] else [port.xChar]) ++ port.xmit.pending

/-- The port after `k` characters have been taken from the ring: nothing else has changed. -/
structure TakenFrom (port : UartPort order) (k : ℕ) (after : UartPort order) : Prop where
  pending : after.xmit.pending = port.xmit.pending.drop k
  head : after.xmit.head = port.xmit.head
  buf : after.xmit.buf = port.xmit.buf
  xChar : after.xChar = port.xChar
  stopped : after.stopped = port.stopped
  fifosize : after.fifosize = port.fifosize
  icountTx : after.icountTx = (port.icountTx + k) % 4294967296

variable {port : UartPort order} {t : Tx order}

theorem writeTail_spec (h : ¬ t.port.xmit.Empty) :
    t.writeTail.wrote = t.wrote ++ t.port.xmit.pending.take 1 ∧
      TakenFrom t.port 1 t.writeTail.port := by
  rw [t.port.xmit.pending_eq_cons h]
  refine ⟨rfl, ?_, rfl, rfl, rfl, rfl, rfl, rfl⟩
  rw [t.port.xmit.pending_eq_cons h]
  rfl

theorem TakenFrom.trans {k l : ℕ} {mid last : UartPort order} (h : TakenFrom port k mid)
    (h' : TakenFrom mid l last) : TakenFrom port (k + l) last where
  pending := by rw [h'.pending, h.pending, List.drop_drop]
  head := h'.head.trans h.head
  buf := h'.buf.trans h.buf
  xChar := h'.xChar.trans h.xChar
  stopped := h'.stopped.trans h.stopped
  fifosize := h'.fifosize.trans h.fifosize
  icountTx := by rw [h'.icountTx, h.icountTx, Nat.mod_add_mod, Nat.add_assoc]

theorem TakenFrom.count {k : ℕ} {after : UartPort order} (h : TakenFrom port k after) :
    after.xmit.count = port.xmit.count - k := by
  rw [← Ring.pending_length, h.pending, List.length_drop, Ring.pending_length]

/-- The loop ends by its counter or with an empty ring, whichever comes first. -/
theorem writeLoop_spec (count : ℕ) (h : ¬ t.port.xmit.Empty) :
    ∃ k, k = min t.port.xmit.count (max 1 count) ∧
      (writeLoop count t).wrote = t.wrote ++ t.port.xmit.pending.take k ∧
        TakenFrom t.port k (writeLoop count t).port := by
  have hsome : t.port.xmit.count ≠ 0 := fun hzero => h (t.port.xmit.count_eq_zero_iff.mp hzero)
  induction count generalizing t with
  | zero =>
      obtain ⟨hwrote, htaken⟩ := writeTail_spec h
      exact ⟨1, by omega, hwrote, htaken⟩
  | succ count ih =>
      obtain ⟨hwrote, htaken⟩ := writeTail_spec h
      have hleft := htaken.count
      simp only [writeLoop]
      by_cases hempty : t.writeTail.port.xmit.Empty
      · rw [← Ring.count_eq_zero_iff] at hempty
        rw [if_pos (t.writeTail.port.xmit.count_eq_zero_iff.mp hempty)]
        exact ⟨1, by omega, hwrote, htaken⟩
      · rw [if_neg hempty]
        by_cases hmore : 0 < count
        · have hnext : t.writeTail.port.xmit.count ≠ 0 :=
            fun hzero => hempty (Ring.count_eq_zero_iff _ |>.mp hzero)
          obtain ⟨k, hk, hwrote', htaken'⟩ := ih hempty hnext
          rw [if_pos hmore]
          refine ⟨1 + k, by omega, ?_, htaken.trans htaken'⟩
          rw [hwrote', hwrote, htaken.pending, List.append_assoc, ← List.take_add]
        · rw [if_neg hmore]
          exact ⟨1, by omega, hwrote, htaken⟩

theorem tinyTxChars_urgent (h : port.xChar ≠ 0) :
    tinyTxChars port = ⟨{ port.counted with xChar := 0 }, [port.xChar], false⟩ := if_pos h

theorem tinyTxChars_idle (hchar : port.xChar = 0) (h : port.xmit.Empty ∨ port.stopped = true) :
    tinyTxChars port = ⟨port, [], false⟩ := by
  rw [tinyTxChars, if_neg (not_not.mpr hchar), if_pos h]

theorem tinyTxChars_sends (hchar : port.xChar = 0) (hempty : ¬ port.xmit.Empty)
    (hstopped : port.stopped = false) :
    (tinyTxChars port).wrote = port.xmit.pending.take port.quota ∧
      TakenFrom port port.quota (tinyTxChars port).port := by
  have hbusy : ¬ (port.xmit.Empty ∨ port.stopped = true) := by
    rw [hstopped]
    simpa using hempty
  obtain ⟨k, hk, hwrote, htaken⟩ :=
    writeLoop_spec (t := ⟨port, [], false⟩) (port.fifosize >>> 1) hempty
  rw [Nat.shiftRight_one] at hk hwrote htaken
  obtain rfl : k = port.quota := hk
  rw [tinyTxChars, if_neg (not_not.mpr hchar), if_neg hbusy]
  exact ⟨hwrote, htaken⟩

/-- What is sent is taken from the front of what has to be sent. -/
theorem tinyTxChars_owed (hstopped : port.stopped = false) :
    (tinyTxChars port).wrote ++ (tinyTxChars port).port.owed = port.owed ∧
      ((tinyTxChars port).wrote = [] → port.owed = []) ∧
      (tinyTxChars port).port.stopped = false ∧
      (tinyTxChars port).port.icountTx % 4294967296 =
        (port.icountTx + (tinyTxChars port).wrote.length) % 4294967296 := by
  by_cases hchar : port.xChar = 0
  · have howed : port.owed = port.xmit.pending := by
      rw [UartPort.owed, if_pos hchar, List.nil_append]
    by_cases hempty : port.xmit.Empty
    · have hnone : port.owed = [] := howed.trans (port.xmit.pending_eq_nil_iff.mpr hempty)
      rw [tinyTxChars_idle hchar (.inl hempty)]
      exact ⟨rfl, fun _ => hnone, hstopped, rfl⟩
    · obtain ⟨hwrote, htaken⟩ := tinyTxChars_sends hchar hempty hstopped
      have hlength : (tinyTxChars port).wrote.length = port.quota := by
        rw [hwrote, List.length_take, Ring.pending_length]
        exact min_eq_left (min_le_left _ _)
      have hsome : port.xmit.count ≠ 0 := fun hzero => hempty (port.xmit.count_eq_zero_iff.mp hzero)
      refine ⟨?_, fun hnone => ?_, htaken.stopped.trans hstopped, ?_⟩
      · rw [UartPort.owed, htaken.xChar, if_pos hchar, hwrote, htaken.pending, List.nil_append,
          List.take_append_drop, howed]
      · rw [hnone, List.length_nil, UartPort.quota] at hlength
        omega
      · rw [htaken.icountTx, hlength, Nat.mod_mod]
  · rw [tinyTxChars_urgent hchar]
    refine ⟨?_, fun hnone => absurd hnone (List.cons_ne_nil _ _), hstopped, Nat.mod_mod _ _⟩
    rw [UartPort.owed, UartPort.owed, if_neg hchar]
    rfl

/-- The run lemma: nothing is lost or sent twice, and every call makes progress. -/
theorem calls_owed (n : ℕ) (hstopped : port.stopped = false) :
    (calls n port).2 ++ (calls n port).1.owed = port.owed ∧
      (port.owed.length ≤ n → (calls n port).2 = port.owed) ∧
      (calls n port).1.icountTx % 4294967296 =
        (port.icountTx + (calls n port).2.length) % 4294967296 := by
  induction n generalizing port with
  | zero =>
      refine ⟨rfl, fun hnone => ?_, rfl⟩
      exact (List.length_eq_zero_iff.mp (Nat.le_zero.mp hnone)).symm
  | succ n ih =>
      obtain ⟨howed, hprogress, hstopped', hcount⟩ := tinyTxChars_owed hstopped
      obtain ⟨hrest, hall, hcount'⟩ := ih hstopped'
      refine ⟨?_, fun hlength => ?_, ?_⟩
      · rw [calls, List.append_assoc, hrest, howed]
      · have hparts := congrArg List.length howed
        rw [List.length_append] at hparts
        have hless : (tinyTxChars port).port.owed.length ≤ n := by
          cases hwrote : (tinyTxChars port).wrote with
          | nil =>
              rw [hprogress hwrote, List.length_nil] at hparts
              omega
          | cons b bytes =>
              rw [hwrote, List.length_cons] at hparts
              omega
        rw [calls, hall hless, howed]
      · rw [calls, hcount', List.length_append, Nat.add_mod, hcount, ← Nat.add_mod, Nat.add_assoc]

/-- A call sends the urgent character alone, nothing, or the oldest characters of the ring,
and counts them; on a port that is not stopped, calls drain the ring in order. -/
theorem tinyTxChars_drains (port : UartPort order) :
    (port.xChar ≠ 0 → (tinyTxChars port).wrote = [port.xChar] ∧
      (tinyTxChars port).port = { port.counted with xChar := 0 }) ∧
    (port.xChar = 0 → port.xmit.pending = [] ∨ port.stopped = true →
      (tinyTxChars port).wrote = [] ∧ (tinyTxChars port).port = port) ∧
    (port.xChar = 0 → port.xmit.pending ≠ [] → port.stopped = false →
      (tinyTxChars port).wrote =
          port.xmit.pending.take (min port.xmit.pending.length (max 1 (port.fifosize / 2))) ∧
        TakenFrom port (min port.xmit.pending.length (max 1 (port.fifosize / 2)))
          (tinyTxChars port).port) ∧
    (port.stopped = false → ∀ n, (calls n port).2 ++ (calls n port).1.owed = port.owed ∧
      (port.owed.length ≤ n → (calls n port).2 = port.owed) ∧
      (calls n port).1.icountTx % 4294967296 =
        (port.icountTx + (calls n port).2.length) % 4294967296) := by
  rw [Ring.pending_length]
  refine ⟨fun hchar => ?_, fun hchar hidle => ?_, fun hchar hempty hstopped => ?_,
    fun hstopped n => calls_owed n hstopped⟩
  · rw [tinyTxChars_urgent hchar]
    exact ⟨rfl, rfl⟩
  · rw [port.xmit.pending_eq_nil_iff] at hidle
    rw [tinyTxChars_idle hchar hidle]
    exact ⟨rfl, rfl⟩
  · rw [Ne.eq_def, port.xmit.pending_eq_nil_iff] at hempty
    exact tinyTxChars_sends hchar hempty hstopped

/-- Two characters, the second one round the end of a ring of four, and no hardware buffer. -/
def wrapped : UartPort 2 :=
  ⟨⟨fun i => UInt8.ofNat (97 + i), 1, 3, by decide, by decide⟩, 0, false, 0, 0⟩

theorem wrapped_drained : (calls 2 wrapped).2 = [100, 97] :=
  ((tinyTxChars_drains wrapped).2.2.2 rfl 2).2.1 (by decide)

end LddSamples.Serial.TinySerial

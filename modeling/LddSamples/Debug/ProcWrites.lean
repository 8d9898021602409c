import LddSamples.Debug.Procfs

/-!
# What writes can do to the procfs file of debug_lab2

`procfile_write` takes whatever `simple_write_to_buffer` returns as the index of the
terminator: the number of bytes that were stored, 0 where there was nothing to store, and
the negative number of an error.
-/

namespace LddSamples.Debug.Procfs

open Kernel Outcome ByteMap

/-- A call of `write` at some position, with what the environment decides about it. -/
structure Write where
  env : Env
  off : ℤ
  buf : List UInt8

def write (procBuff : ℕ → UInt8) (e : Write) : Except Fault (ℕ → UInt8) := do
  let w ← procfileWrite e.env procBuff e.buf e.off
  .ok w.buffer

/-- The `strlen` of `procfile_read` ends inside the buffer. -/
def Terminated (procBuff : ℕ → UInt8) : Prop := ∃ n, strlen (window procBuff 0 MAXBUFF) = .ok n

/-- The terminator goes into the buffer, and a write that fails or stores nothing changes
nothing. -/
def Safe (procBuff : ℕ → UInt8) (e : Write) : Prop :=
  ∃ w, procfileWrite e.env procBuff e.buf e.off = .ok w ∧ (w.ret ≤ 0 → w.buffer = procBuff)

namespace Write

/-- There is nothing to store, or no room for it. -/
def Idle (e : Write) : Prop := (MAXBUFF : ℕ) ≤ e.off ∨ e.buf.length = 0

instance (e : Write) : Decidable e.Idle := inferInstanceAs (Decidable (_ ∨ _))

/-- The bytes that there is room for. -/
def room (e : Write) : ℕ := min e.buf.length ((MAXBUFF : ℕ) - e.off).toNat

/-- The bytes of these that the environment lets through. -/
def copied (e : Write) : ℕ := min e.room (e.env.copied e.room)

end Write

/-- An idle write finds an empty text; any other one stores some bytes, but not as many as
fill the buffer. -/
def Storable (procBuff : ℕ → UInt8) (e : Write) : Prop :=
  0 ≤ e.off ∧ (e.Idle → procBuff 0 = 0) ∧ (¬ e.Idle → 0 < e.copied ∧ e.copied < MAXBUFF)

variable {procBuff : ℕ → UInt8} {e : Write}

theorem terminated_iff : Terminated procBuff ↔ ∃ n < MAXBUFF, procBuff n = 0 := by
  constructor
  · rintro ⟨n, hn⟩
    obtain ⟨hlt, hzero, -⟩ := strlen_window.mp hn
    exact ⟨n, hlt, hzero⟩
  · intro hexists
    obtain ⟨hlt, hzero⟩ := Nat.find_spec hexists
    refine ⟨Nat.find hexists, strlen_window.mpr ⟨hlt, hzero, fun i hi hi0 => ?_⟩⟩
    exact Nat.find_min hexists hi ⟨hi.trans hlt, hi0⟩

theorem terminated_update {n : ℕ} (hn : n < MAXBUFF) :
    Terminated (Function.update procBuff n 0) :=
  terminated_iff.mpr ⟨n, hn, Function.update_self ..⟩

/-- The errno of a position before the beginning is taken for an index. -/
theorem write_negative (hoff : e.off < 0) (procBuff : ℕ → UInt8) :
    procfileWrite e.env procBuff e.buf e.off = .error .indexOutOfBounds := by
  rw [procfileWrite, simpleWriteToBuffer, if_pos hoff]
  rfl

/-- An idle write puts the terminator in front of the text. -/
theorem write_idle (hoff : 0 ≤ e.off) (hidle : e.Idle) (procBuff : ℕ → UInt8) :
    procfileWrite e.env procBuff e.buf e.off =
      .ok ⟨0, e.off, Function.update procBuff 0 0⟩ := by
  rw [procfileWrite, simpleWriteToBuffer_idle e.env procBuff hoff hidle]
  rfl

theorem write_stores (hoff : 0 ≤ e.off) (hidle : ¬ e.Idle) (hpos : 0 < e.copied)
    (hlt : e.copied < MAXBUFF) (procBuff : ℕ → UInt8) :
    ∃ after, procfileWrite e.env procBuff e.buf e.off =
      .ok ⟨e.copied, e.off + e.copied, Function.update after e.copied 0⟩ := by
  obtain ⟨after, hw⟩ := simpleWriteToBuffer_ret e.env procBuff hoff hidle (n := e.copied) rfl
  have hindex : (0 : ℤ) ≤ (e.copied : ℤ) ∧ (e.copied : ℤ) < (MAXBUFF : ℕ) := by omega
  rw [if_neg hpos.ne'] at hw
  refine ⟨after, ?_⟩
  simp only [procfileWrite, hw, require_of hindex, ok_bind, Int.toNat_natCast]

/-- No byte, or one for every place of the buffer: the index is outside. -/
theorem write_faults (hoff : 0 ≤ e.off) (hidle : ¬ e.Idle)
    (hcopied : e.copied = 0 ∨ MAXBUFF ≤ e.copied) (procBuff : ℕ → UInt8) :
    procfileWrite e.env procBuff e.buf e.off = .error .indexOutOfBounds := by
  obtain ⟨after, hw⟩ := simpleWriteToBuffer_ret e.env procBuff hoff hidle (n := e.copied) rfl
  rcases hcopied with hnone | hfull
  · rw [if_pos hnone] at hw
    rw [procfileWrite, hw]
    rfl
  · have hsome : 0 < MAXBUFF := by decide
    have hindex : ¬ ((0 : ℤ) ≤ (e.copied : ℤ) ∧ (e.copied : ℤ) < (MAXBUFF : ℕ)) := by omega
    rw [if_neg (hsome.trans_le hfull).ne'] at hw
    rw [procfileWrite, hw]
    exact bind_eq_error.mpr (.inl (require_eq_error.mpr ⟨hindex, rfl⟩))

theorem Storable.write_ok (h : Storable procBuff e) :
    ∃ w, procfileWrite e.env procBuff e.buf e.off = .ok w ∧ Terminated w.buffer ∧
      (w.ret ≤ 0 → w.buffer = procBuff) := by
  obtain ⟨hoff, hempty, hstores⟩ := h
  by_cases hidle : e.Idle
  · have hsame : Function.update procBuff 0 0 = procBuff :=
      Function.update_eq_self_iff.mpr (hempty hidle).symm
    exact ⟨_, write_idle hoff hidle procBuff, terminated_update (by decide), fun _ => hsame⟩
  · obtain ⟨hpos, hlt⟩ := hstores hidle
    obtain ⟨after, hw⟩ := write_stores hoff hidle hpos hlt procBuff
    refine ⟨_, hw, terminated_update hlt, fun hret => ?_⟩
    have hret : (e.copied : ℤ) ≤ 0 := hret
    omega

theorem storable_of_safe (h : Safe procBuff e) : Storable procBuff e := by
  obtain ⟨w, hw, hsame⟩ := h
  have hoff : 0 ≤ e.off := by
    by_contra hneg
    rw [write_negative (Int.not_le.mp hneg)] at hw
    cases hw
  refine ⟨hoff, fun hidle => ?_, fun hidle => ?_⟩
  · rw [write_idle hoff hidle] at hw
    cases hw
    exact (Function.update_eq_self_iff.mp (hsame le_rfl)).symm
  · by_contra hbad
    rw [write_faults hoff hidle (by omega)] at hw
    cases hw

/-- Offset, length and copy of a write decide which index it uses; whether an idle one shows,
the text that it finds. -/
theorem safe_iff_storable : Safe procBuff e ↔ Storable procBuff e := by
  refine ⟨storable_of_safe, fun h => ?_⟩
  obtain ⟨w, hw, -, hsame⟩ := h.write_ok
  exact ⟨w, hw, hsame⟩

theorem terminated_of_storable {after : ℕ → UInt8} (h : Storable procBuff e)
    (hwrite : write procBuff e = .ok after) : Terminated after := by
  obtain ⟨w, hw, hterminated, -⟩ := h.write_ok
  rw [write, hw] at hwrite
  cases hwrite
  exact hterminated

/-- Through any writes the text ends inside its buffer and every write is safe, exactly
when every write can be stored. -/
theorem writes_safe_iff (procBuff : ℕ → UInt8) (hterminated : Terminated procBuff)
    (ws : List Write) :
    (Runs.Always write Terminated procBuff ws ∧ Runs.Along write Safe procBuff ws) ↔
      Runs.Along write Storable procBuff ws := by
  rw [Runs.always_iff_next, and_iff_right hterminated, ← Runs.along_and]
  apply Runs.along_congr (I := fun _ => True) (fun procBuff e _ => ?_) (fun _ _ _ _ _ _ => trivial)
    trivial
  rw [safe_iff_storable]
  exact and_iff_right_of_imp fun h after => terminated_of_storable h

/-- The text that the module starts with. -/
def hello : ℕ → UInt8 := overwrite (fun _ => 0) 0 [72, 69, 76, 76, 79, 32, 80, 82, 79, 67]

theorem twoStores_safe :
    Runs.Always write Terminated hello [⟨Env.calm, 0, [97, 98, 99]⟩, ⟨Env.calm, 3, [100]⟩] ∧
      Runs.Along write Safe hello [⟨Env.calm, 0, [97, 98, 99]⟩, ⟨Env.calm, 3, [100]⟩] := by
  have hterminated : Terminated hello := terminated_iff.mpr ⟨10, by decide, rfl⟩
  refine (writes_safe_iff hello hterminated _).mpr ⟨?_, fun _ _ => ⟨?_, fun _ _ => trivial⟩⟩
  · exact ⟨by decide, fun hidle => absurd hidle (by decide), fun _ => by decide⟩
  · exact ⟨by decide, fun hidle => absurd hidle (by decide), fun _ => by decide⟩

/-- As many bytes as the buffer has. -/
def fullWrite : Write := ⟨Env.calm, 0, List.replicate MAXBUFF 97⟩

theorem fullWrite_faults (procBuff : ℕ → UInt8) :
    procfileWrite fullWrite.env procBuff fullWrite.buf fullWrite.off =
      .error .indexOutOfBounds := by
  have hlength : fullWrite.buf.length = MAXBUFF := List.length_replicate
  have hroom : fullWrite.room = MAXBUFF := by
    rw [Write.room, hlength]
    rfl
  refine write_faults le_rfl ?_ (.inr ?_) procBuff
  · rw [Write.Idle, hlength]
    decide
  · rw [Write.copied, hroom]
    exact le_min le_rfl le_rfl

/-- A write of nothing removes the text; one of 128 bytes, and one from a page that is not
there, use an index outside the buffer. -/
theorem idle_and_full_unsafe :
    (∃ after, write hello ⟨Env.calm, 0, []⟩ = .ok after ∧ after 0 = 0 ∧ hello 0 = 72) ∧
      write hello ⟨{ Env.calm with copied := fun _ => 0 }, 0, [97]⟩ = .error .indexOutOfBounds ∧
      write hello fullWrite = .error .indexOutOfBounds ∧
      ¬ Runs.Along write Safe hello [⟨Env.calm, 0, []⟩] ∧
      ¬ Runs.Along write Safe hello [fullWrite] := by
  refine ⟨⟨_, rfl, rfl, rfl⟩, rfl, ?_, fun hidle => ?_, fun hfull => ?_⟩
  · exact bind_eq_error.mpr (.inl (fullWrite_faults hello))
  · exact absurd ((safe_iff_storable.mp hidle.1).2.1 (.inr rfl)) (by decide)
  · obtain ⟨w, hw, -⟩ := hfull.1
    rw [fullWrite_faults] at hw
    cases hw

end LddSamples.Debug.Procfs

import LddSamples.Kernel.SimpleBuffer
import LddSamples.Library.Runs

/-!
# The procfs file of debug_lab2

A write goes to the position of the file, and its terminator to the place that the
count of this one write says. So a read returns what was written only while the last
write is all of it.
-/

namespace LddSamples.Debug.Procfs

open Kernel Outcome ByteMap

def MAXBUFF : ℕ := 128

/-- `strlen` of a string that has to end in these bytes. -/
def strlen (bytes : List UInt8) : Except Fault ℕ :=
  ofOption .indexOutOfBounds (bytes.findIdx? (· == 0))

def procfileRead (env : Env) (procBuff : ℕ → UInt8) (len : ℕ) (off : ℤ) :
    Except Fault SimpleRead := do
  let available ← strlen (window procBuff 0 MAXBUFF)
  .ok (simpleReadFromBuffer env len off procBuff available)

def procfileWrite (env : Env) (procBuff : ℕ → UInt8) (buf : List UInt8) (off : ℤ) :
    Except Fault SimpleWrite := do
  let w := simpleWriteToBuffer env procBuff MAXBUFF off buf
  require .indexOutOfBounds (0 ≤ w.ret ∧ w.ret < MAXBUFF)
  .ok { w with buffer := Function.update w.buffer w.ret.toNat 0 }

/-- The buffer of the driver and the position of one open file. -/
structure OpenFile where
  procBuff : ℕ → UInt8
  off : ℤ

def step (f : OpenFile) (buf : List UInt8) : Except Fault OpenFile := do
  let w ← procfileWrite Env.calm f.procBuff buf f.off
  .ok ⟨w.buffer, w.off⟩

/-- Reads of every length from offset 0 return the text, as far as they go. -/
def Reads (procBuff : ℕ → UInt8) (text : List UInt8) : Prop :=
  ∀ len, procfileRead Env.calm procBuff len 0 =
    .ok ⟨(text.take len).length, (text.take len).length, text.take len⟩

/-- The last write is all that was written; where nothing was, the buffer was empty. -/
def LastIsAll (procBuff : ℕ → UInt8) (ws : List (List UInt8)) : Prop :=
  match ws.getLast? with
  | none => procBuff 0 = 0
  | some last => last = ws.flatten

/-! ## Reading -/

theorem strlen_window {procBuff : ℕ → UInt8} {n : ℕ} :
    strlen (window procBuff 0 MAXBUFF) = .ok n ↔
      n < MAXBUFF ∧ procBuff n = 0 ∧ ∀ i < n, procBuff i ≠ 0 := by
  rw [strlen, ofOption_eq_ok, List.findIdx?_eq_some_iff_getElem]
  simp [and_left_comm]

theorem reads_iff {procBuff : ℕ → UInt8} {text : List UInt8} (hnul : 0 ∉ text)
    (hfit : text.length < MAXBUFF) :
    Reads procBuff text ↔ window procBuff 0 text.length = text ∧ procBuff text.length = 0 := by
  constructor
  · intro hreads
    have hall := hreads MAXBUFF
    rw [List.take_of_length_le hfit.le, procfileRead, bind_eq_ok] at hall
    obtain ⟨n, hn, hread⟩ := hall
    obtain ⟨hlt, hend, -⟩ := strlen_window.mp hn
    rw [simpleReadFromBuffer_start, min_eq_right hlt.le, Except.ok.injEq,
      SimpleRead.mk.injEq] at hread
    obtain ⟨hret, -, hout⟩ := hread
    obtain rfl : n = text.length := by exact_mod_cast hret
    exact ⟨hout, hend⟩
  · rintro ⟨hout, hend⟩ len
    have hlen : strlen (window procBuff 0 MAXBUFF) = .ok text.length := by
      refine strlen_window.mpr ⟨hfit, hend, fun i hi hzero => hnul ?_⟩
      rw [← hout, ← hzero]
      exact List.mem_map.mpr ⟨i, List.mem_range.mpr hi, by rw [Nat.zero_add]⟩
    have htake : window procBuff 0 (min len text.length) = text.take len := by
      rw [← window_take, hout]
    rw [procfileRead, hlen, ok_bind, simpleReadFromBuffer_start, htake, List.length_take]

/-! ## Writing -/

theorem step_eq (procBuff : ℕ → UInt8) {p : ℕ} {buf : List UInt8}
    (hfit : p + buf.length < MAXBUFF) :
    step ⟨procBuff, p⟩ buf =
      .ok ⟨Function.update (overwrite procBuff p buf) buf.length 0, (p + buf.length : ℕ)⟩ := by
  have hret : (0 : ℤ) ≤ (buf.length : ℤ) ∧ (buf.length : ℤ) < (MAXBUFF : ℕ) := by omega
  simp only [step, procfileWrite, simpleWriteToBuffer_inside procBuff hfit.le, require_of hret,
    ok_bind, Int.toNat_natCast]

/-- The position is the number of the bytes written so far. -/
theorem exec_writes (procBuff : ℕ → UInt8) (p : ℕ) (ws : List (List UInt8))
    (hfit : p + ws.flatten.length < MAXBUFF) :
    ∃ after, Runs.exec step ⟨procBuff, p⟩ ws = .ok ⟨after, (p + ws.flatten.length : ℕ)⟩ := by
  induction ws generalizing procBuff p with
  | nil => exact ⟨procBuff, rfl⟩
  | cons w ws ih =>
      rw [List.flatten_cons, List.length_append] at hfit ⊢
      rw [← Nat.add_assoc] at hfit ⊢
      obtain ⟨after, hrun⟩ := ih (Function.update (overwrite procBuff p w) w.length 0) _ hfit
      refine ⟨after, ?_⟩
      rw [Runs.exec_cons, step_eq procBuff (by omega)]
      exact hrun

theorem reads_last_iff (procBuff : ℕ → UInt8) {before last : List UInt8}
    (hnul : 0 ∉ before ++ last) (hfit : (before ++ last).length < MAXBUFF) :
    Reads (Function.update (overwrite procBuff before.length last) last.length 0) (before ++ last) ↔
      last = before ++ last := by
  rw [reads_iff hnul hfit]
  constructor
  · rintro ⟨hout, -⟩
    by_contra hne
    have hlt : last.length < (before ++ last).length := by
      have : before ≠ [] := by
        rintro rfl
        exact hne rfl
      have := List.length_pos_of_ne_nil this
      rw [List.length_append]
      omega
    apply hnul
    rw [← hout]
    exact List.mem_map.mpr ⟨last.length, List.mem_range.mpr hlt, by
      rw [Nat.zero_add, Function.update_self]⟩
  · intro hlast
    obtain rfl : before = [] := List.append_left_eq_self.mp hlast.symm
    rw [List.nil_append, List.length_nil, Function.update_self]
    refine ⟨?_, rfl⟩
    conv_rhs => rw [← window_overwrite procBuff 0 last]
    refine List.map_congr_left fun i hi => ?_
    exact Function.update_of_ne (by rw [Nat.zero_add]; exact (List.mem_range.mp hi).ne) _ _

/-- After any writes through one file that fit the buffer, a read from the start
returns all that was written exactly when the last write is all of it. -/
theorem reads_written_iff (procBuff : ℕ → UInt8) (ws : List (List UInt8))
    (hnul : ∀ w ∈ ws, 0 ∉ w) (hfit : ws.flatten.length < MAXBUFF) :
    (∃ f, Runs.exec step ⟨procBuff, 0⟩ ws = .ok f ∧ Reads f.procBuff ws.flatten) ↔
      LastIsAll procBuff ws := by
  have hclean : 0 ∉ ws.flatten := by
    intro hmem
    obtain ⟨w, hw, hzero⟩ := List.mem_flatten.mp hmem
    exact hnul w hw hzero
  unfold LastIsAll
  rcases List.eq_nil_or_concat ws with rfl | ⟨init, last, rfl⟩
  · simp only [Runs.exec_nil, Except.ok.injEq, exists_eq_left']
    rw [reads_iff hclean hfit]
    simp
  · rw [List.concat_eq_append, List.flatten_append] at hfit hclean ⊢
    simp only [List.flatten_cons, List.flatten_nil, List.append_nil] at hfit hclean ⊢
    rw [List.length_append] at hfit
    obtain ⟨after, hrun⟩ := exec_writes procBuff 0 init (by omega)
    have hrun : Runs.exec step ⟨procBuff, 0⟩ init =
        .ok ⟨after, ((0 + init.flatten.length : ℕ) : ℤ)⟩ := hrun
    rw [Nat.zero_add] at hrun
    rw [Runs.exec_append, hrun, ok_bind, Runs.exec_cons, step_eq after hfit, ok_bind,
      Runs.exec_nil]
    rw [← List.length_append] at hfit
    simp only [Except.ok.injEq, exists_eq_left', List.getLast?_concat]
    exact reads_last_iff after hclean hfit

theorem reads_written_iff_empty_then_text :
    (∃ f, Runs.exec step ⟨fun _ => 0, 0⟩ [[], [97, 98]] = .ok f ∧
        Reads f.procBuff [[], [97, 98]].flatten) ↔ LastIsAll (fun _ => 0) [[], [97, 98]] :=
  reads_written_iff (fun _ => 0) [[], [97, 98]] (by decide) (by decide)

/-- "abc" and then "de": a read returns "ab". -/
theorem two_writes_cut :
    ∃ f, Runs.exec step ⟨fun _ => 0, 0⟩ [[97, 98, 99], [100, 101]] = .ok f ∧
      procfileRead Env.calm f.procBuff MAXBUFF 0 = .ok ⟨2, 2, [97, 98]⟩ ∧
      ¬ Reads f.procBuff [[97, 98, 99], [100, 101]].flatten := by
  refine ⟨_, rfl, rfl, fun hreads => ?_⟩
  have hall := hreads MAXBUFF
  exact absurd (congrArg (fun r => r.map SimpleRead.out) hall) (by decide)

end LddSamples.Debug.Procfs

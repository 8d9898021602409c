import LddSamples.Kernel.SimpleBuffer
import LddSamples.Library.Decimal
import LddSamples.Library.Runs

/-!
# The debugfs file `filen`

Reads print the value into the string that writes are copied to, and a write leaves
what stands behind its last byte. So the digits that an earlier, longer text has there
become digits of the new number.
-/

namespace LddSamples.Debug.Debugfs

open Kernel CArith Outcome ByteMap Decimal

def KS : ℕ := 32

/-- `val` is a `u32`, and is printed and scanned by `%d`. -/
structure State where
  kstring : ℕ → UInt8
  val : ℕ

def initial : State := ⟨fun _ => 0, 888⟩

def myRead (env : Env) (s : State) (lbuf : ℕ) (ppos : ℤ) : SimpleRead × State :=
  let line := text (toInt32 s.val) ++ [10]
  let kstring := overwrite s.kstring 0 (line ++ [0])
  (simpleReadFromBuffer env lbuf ppos kstring line.length, { s with kstring := kstring })

/-- The result of `copy_from_user` is not tested, and the count comes from the user.
A scan that does not stop in `kstring` reads behind it. -/
def myWrite (env : Env) (s : State) (buf : List UInt8) : Except Fault (ℤ × State) := do
  require .copyOutOfBounds (buf.length ≤ KS)
  let copied := min buf.length (env.copied buf.length)
  let kstring := overwrite s.kstring 0
    (buf.take copied ++ List.replicate (buf.length - copied) 0)
  require .indexOutOfBounds (Stops (window kstring 0 KS))
  let val := ((scanInt (window kstring 0 KS)).map toUInt32).getD s.val
  .ok (toInt32 buf.length, ⟨kstring, val⟩)

inductive Op
  | read (lbuf : ℕ) (ppos : ℤ)
  | write (v : ℤ)

def step (s : State) : Op → Except Fault State
  | .read lbuf ppos => .ok (myRead Env.calm s lbuf ppos).2
  | .write v => (myWrite Env.calm s (text v)).map Prod.snd

def IsInt (v : ℤ) : Prop := -2147483648 ≤ v ∧ v ≤ INT_MAX

def Op.Admissible : Op → Prop
  | .read _ _ => True
  | .write v => IsInt v

/-- After a write of the text of `v`, reads from offset 0 return it and a newline. -/
def RoundTrip (s : State) (v : ℤ) : Prop :=
  ∃ s', myWrite Env.calm s (text v) = .ok ((text v).length, s') ∧
    ∀ lbuf, ∃ off, (myRead Env.calm s' lbuf 0).1 =
      ⟨((text v ++ [10]).take lbuf).length, off, (text v ++ [10]).take lbuf⟩

/-- The digits that `kstring` has right behind its first `n` bytes. -/
def leftover (s : State) (n : ℕ) : List UInt8 := (window s.kstring n (KS - n)).takeWhile isDigit

/-- The number that is read when the digits left behind the text of `v` are taken for
more digits of it. -/
def joined (s : State) (v : ℤ) : ℤ :=
  v * 10 ^ (leftover s (text v).length).length +
    (if v < 0 then -1 else 1) * value (leftover s (text v).length)

/-- The digits left behind the text, if any, do not change the number as an `int`. -/
def Undisturbed (s : State) (v : ℤ) : Prop := toInt32 (joined s v) = v

/-- No text reaches further into `kstring` than a printed line with its terminator. -/
def Clean (s : State) : Prop := ∀ i, 13 ≤ i → s.kstring i = 0

variable {s : State} {v : ℤ}

theorem isInt_toInt32 (x : ℤ) : IsInt (toInt32 x) := by
  unfold IsInt toInt32 INT_MAX
  omega

theorem IsInt.text_length_le (hv : IsInt v) : (text v).length ≤ 11 := by
  apply Decimal.text_length_le (by omega)
  unfold IsInt INT_MAX at hv
  omega

theorem Clean.overwrite (hs : Clean s) {data : List UInt8} (hdata : data.length ≤ 13) (i : ℕ)
    (hi : 13 ≤ i) : ByteMap.overwrite s.kstring 0 data i = 0 := by
  rw [overwrite_of_ge _ (by omega)]
  exact hs i hi

theorem myRead_clean (env : Env) (hs : Clean s) (lbuf : ℕ) (ppos : ℤ) :
    Clean (myRead env s lbuf ppos).2 := by
  have hlen := (isInt_toInt32 s.val).text_length_le
  have hline : (text (toInt32 s.val) ++ [10] ++ [0]).length ≤ 13 := by
    simp only [List.length_append, List.length_singleton]
    omega
  intro i hi
  dsimp only [myRead]
  exact hs.overwrite hline i hi

theorem initial_clean : Clean initial := fun _ _ => rfl

/-! ## One write -/

theorem window_written (s : State) {bytes : List UInt8} (hfit : bytes.length ≤ KS) :
    window (overwrite s.kstring 0 bytes) 0 KS =
      bytes ++ window s.kstring bytes.length (KS - bytes.length) := by
  have hsplit : KS = bytes.length + (KS - bytes.length) := by omega
  conv_lhs => rw [hsplit, window_add, window_overwrite, Nat.zero_add]
  refine congrArg _ (List.map_congr_left fun i _ => ?_)
  exact overwrite_of_ge _ (by omega)

/-- The text of a number is followed by a byte that is no digit. -/
theorem stops_written (hs : Clean s) (hv : IsInt v) :
    Stops (text v ++ window s.kstring (text v).length (KS - (text v).length)) := by
  have hlen := hv.text_length_le
  have hks : KS = 32 := rfl
  have hzero : (0 : UInt8) ∈ window s.kstring (text v).length (KS - (text v).length) := by
    refine List.mem_map.mpr ⟨13, List.mem_range.mpr (by omega), hs _ (by omega)⟩
  rw [Stops, sign_text_append]
  intro hnil
  have hall := List.dropWhile_eq_nil_iff.mp hnil 0 (List.mem_append_right _ hzero)
  exact absurd hall (by decide)

theorem myWrite_text (hs : Clean s) (hv : IsInt v) :
    myWrite Env.calm s (text v) =
      .ok ((text v).length, ⟨overwrite s.kstring 0 (text v), toUInt32 (joined s v)⟩) := by
  have hlen := hv.text_length_le
  have hfit : (text v).length ≤ KS := by
    unfold KS
    omega
  have hret : toInt32 ((text v).length : ℤ) = (text v).length :=
    toInt32_of_mem (by omega) (by unfold INT_MAX; omega)
  have hstops := stops_written hs hv
  rw [← window_written s hfit] at hstops
  simp only [myWrite, require_of hfit, ok_bind, calm_copied, min_self, List.take_length,
    Nat.sub_self, List.replicate_zero, List.append_nil, require_of hstops, hret]
  rw [window_written s hfit, scanInt_text_append]
  rfl

theorem myWrite_clean (hs : Clean s) (hv : IsInt v) :
    Clean ⟨overwrite s.kstring 0 (text v), toUInt32 (joined s v)⟩ :=
  hs.overwrite (hv.text_length_le.trans (by omega))

/-! ## Histories -/

theorem step_clean {op : Op} (hs : Clean s) (hop : op.Admissible) :
    ∃ s', step s op = .ok s' ∧ Clean s' := by
  cases op with
  | read lbuf ppos => exact ⟨_, rfl, myRead_clean Env.calm hs lbuf ppos⟩
  | write v =>
      refine ⟨_, ?_, myWrite_clean hs hop⟩
      rw [step, myWrite_text hs hop]
      rfl

theorem exec_clean (hs : Clean s) (ops : List Op) (hops : ∀ op ∈ ops, op.Admissible) :
    ∃ s', Runs.exec step s ops = .ok s' ∧ Clean s' := by
  induction ops generalizing s with
  | nil => exact ⟨s, rfl, hs⟩
  | cons op ops ih =>
      obtain ⟨s₁, hstep, hs₁⟩ := step_clean hs (hops op List.mem_cons_self)
      obtain ⟨s', hrun, hs'⟩ := ih hs₁ fun o ho => hops o (List.mem_cons_of_mem _ ho)
      refine ⟨s', ?_, hs'⟩
      rw [Runs.exec_cons, hstep]
      exact hrun

theorem myRead_start (s : State) (lbuf : ℕ) :
    ∃ off, (myRead Env.calm s lbuf 0).1 = ⟨((text (toInt32 s.val) ++ [10]).take lbuf).length, off,
      (text (toInt32 s.val) ++ [10]).take lbuf⟩ := by
  generalize hline : text (toInt32 s.val) ++ [10] = line
  have hout : window (overwrite s.kstring 0 (line ++ [0])) 0 (min lbuf line.length) =
      line.take lbuf := by
    rw [window_overwrite_take _ _ (by simp), List.take_append_of_le_length (min_le_right _ _),
      ← List.take_eq_take_min]
  refine ⟨(min lbuf line.length : ℕ), ?_⟩
  rw [myRead, hline, simpleReadFromBuffer_start, hout, List.length_take]

/-- After any history of reads and of writes of numbers, a number that is written is
read back exactly when the digits left behind its text do not change it. -/
theorem roundTrip_iff (ops : List Op) (hops : ∀ op ∈ ops, op.Admissible) (hv : IsInt v) :
    ∃ s, Runs.exec step initial ops = .ok s ∧ (RoundTrip s v ↔ Undisturbed s v) := by
  obtain ⟨s, hrun, hs⟩ := exec_clean initial_clean ops hops
  refine ⟨s, hrun, ?_⟩
  have hval : toInt32 ((toUInt32 (joined s v) : ℕ) : ℤ) = toInt32 (joined s v) := by
    unfold toInt32 toUInt32
    omega
  constructor
  · rintro ⟨s', hwrite, hreads⟩
    rw [myWrite_text hs hv, Except.ok.injEq, Prod.mk.injEq] at hwrite
    obtain ⟨-, rfl⟩ := hwrite
    have hprinted := myRead_start ⟨overwrite s.kstring 0 (text v), toUInt32 (joined s v)⟩
    rw [hval] at hprinted
    -- a read that is long enough for both texts
    generalize hn : (text v ++ [10]).length + (text (toInt32 (joined s v)) ++ [10]).length = n
    obtain ⟨off, hread⟩ := hreads n
    obtain ⟨off', hread'⟩ := hprinted n
    rw [hread, SimpleRead.mk.injEq, List.take_of_length_le (by omega),
      List.take_of_length_le (by omega)] at hread'
    exact (text_injective (List.append_cancel_right hread'.2.2)).symm
  · intro hsame
    refine ⟨_, myWrite_text hs hv, fun lbuf => ?_⟩
    have hread := myRead_start ⟨overwrite s.kstring 0 (text v), toUInt32 (joined s v)⟩ lbuf
    rwa [hval, hsame] at hread

theorem roundTrip_iff_longer :
    ∃ s, Runs.exec step initial [.write 6, .read 32 0] = .ok s ∧
      (RoundTrip s 12345 ↔ Undisturbed s 12345) :=
  roundTrip_iff [.write 6, .read 32 0] (by
    rintro op hop
    rcases List.mem_pair.mp hop with rfl | rfl
    · exact ⟨by decide, by decide⟩
    · trivial) ⟨by decide, by decide⟩

/-- The driver after a write of "12345". -/
def afterLonger : State := ⟨overwrite initial.kstring 0 (text 12345), 12345⟩

/-- A write of "6" is then read back as "62345". -/
theorem shorter_text_joined :
    Runs.exec step initial [.write 12345] = .ok afterLonger ∧
      (∃ s', myWrite Env.calm afterLonger (text 6) = .ok (1, s') ∧
        (myRead Env.calm s' KS 0).1.out = text 62345 ++ [10]) ∧ ¬ RoundTrip afterLonger 6 := by
  have hfirst : IsInt 12345 := ⟨by decide, by decide⟩
  have hclean : Clean afterLonger := myWrite_clean initial_clean hfirst
  have hwrite := myWrite_text hclean (v := 6) ⟨by decide, by decide⟩
  have hread : (myRead Env.calm ⟨overwrite afterLonger.kstring 0 (text 6),
      toUInt32 (joined afterLonger 6)⟩ KS 0).1.out = text 62345 ++ [10] := by
    obtain ⟨off, h⟩ := myRead_start ⟨overwrite afterLonger.kstring 0 (text 6),
      toUInt32 (joined afterLonger 6)⟩ KS
    rw [h]
    exact (by decide : (text (toInt32 62345) ++ [10]).take KS = text 62345 ++ [10])
  refine ⟨?_, ⟨_, hwrite, hread⟩, ?_⟩
  · rw [Runs.exec_cons, step, myWrite_text initial_clean hfirst]
    rfl
  · rintro ⟨s', hagain, hreads⟩
    rw [hwrite, Except.ok.injEq, Prod.mk.injEq] at hagain
    obtain ⟨-, rfl⟩ := hagain
    obtain ⟨off, hsame⟩ := hreads KS
    rw [hsame] at hread
    exact absurd hread (by decide : (text 6 ++ [10]).take KS ≠ text 62345 ++ [10])

end LddSamples.Debug.Debugfs

import LddSamples.Kernel.Basic
import LddSamples.Library.Decimal

/-!
# Parameters written through /proc

The bytes are copied into an object of exactly their number and scanned without a
terminator. So the value depends on the memory behind the object, unless the scan has
come to an end among the bytes.
-/

namespace LddSamples.Debug.Proc

open Kernel CArith Outcome Decimal

structure Result (α : Type) where
  ret : ℤ
  param : α
  heap : Heap

/-- `sscanf(str, "%d", &param)`; a number is stored modulo `2 ^ 32`. -/
def sscanf (str : List UInt8) (param : ℤ) : ℤ := ((scanInt str).map toInt32).getD param

/-- An allocation of the size of the bytes, the copy, and the scan of the object and
what stands behind it. An empty object is `ZERO_SIZE_PTR`, which must not be read. -/
def writeParam {α : Type} (env : Env) (heap : Heap) (buffer behind : List UInt8) (param : α)
    (scan : List UInt8 → α) : Except Fault (Result α) :=
  match kmalloc env heap with
  | (none, _) => .error .nullDereference
  | (some str, heap) =>
      if env.copied buffer.length < buffer.length then .ok ⟨-EFAULT, param, kfree heap str⟩
      else do
        require .nullDereference (buffer.length ≠ 0)
        .ok ⟨toInt32 buffer.length, scan (buffer ++ behind), kfree heap str⟩

/-- `my_proc_write` of lab5_proc. -/
def myProcWrite (env : Env) (heap : Heap) (buffer behind : List UInt8) (param : ℤ) :
    Except Fault (Result ℤ) :=
  writeParam env heap buffer behind param fun str => sscanf str param

namespace SolA

/-- What the `data` of the entry that was written says. -/
inductive Entry
  | myProc1
  | myProc2
  | other

structure Params where
  param1 : ℤ
  param2 : ℤ

/-- `my_proc_write` of lab6_proc_solA. -/
def myProcWrite (env : Env) (heap : Heap) (buffer behind : List UInt8) (params : Params) :
    Entry → Except Fault (Result Params)
  | .myProc1 => writeParam env heap buffer behind params fun str =>
      { params with param1 := sscanf str params.param1 }
  | .myProc2 => writeParam env heap buffer behind params fun str =>
      { params with param2 := sscanf str params.param2 }
  | .other =>
      match kmalloc env heap with
      | (none, _) => .error .nullDereference
      | (some str, heap) =>
          if env.copied buffer.length < buffer.length then .ok ⟨-EFAULT, params, kfree heap str⟩
          else .ok ⟨-EINVAL, params, kfree heap str⟩

end SolA

/-! ## Two runs -/

/-- Any two runs that differ only in what stands behind the object leave the same
value. The memory goes on to a terminator somewhere. -/
def Determined {α : Type} (run : List UInt8 → Except Fault (Result α)) : Prop :=
  ∀ behind behind', 0 ∈ behind → 0 ∈ behind' →
    (run behind).map Result.param = (run behind').map Result.param

/-- The call does not come to the scan, or the scan comes to an end among the bytes. -/
def Decided (env : Env) (heap : Heap) (buffer : List UInt8) : Prop :=
  (kmalloc env heap).1 = none ∨ env.copied buffer.length < buffer.length ∨ buffer = [] ∨
    Stops buffer

variable {env : Env} {heap : Heap} {buffer : List UInt8}

theorem sscanf_append (behind : List UInt8) (param : ℤ) (h : Stops buffer) :
    sscanf (buffer ++ behind) param = sscanf buffer param := by
  rw [sscanf, sscanf, scanInt_append behind h]

/-- A scan that has not stopped tells the digits 0 and 1 behind it apart. -/
theorem sscanf_digit_ne (param : ℤ) (h : ¬ Stops buffer) :
    sscanf (buffer ++ [digit 0, 0]) param ≠ sscanf (buffer ++ [digit 1, 0]) param := by
  rw [sscanf, sscanf, scanInt_append_digit h (by omega), scanInt_append_digit h (by omega)]
  simp only [Option.map_some, Option.getD_some]
  have hsign : (sign (buffer.dropWhile isSpace)).1 = 1 ∨
      (sign (buffer.dropWhile isSpace)).1 = -1 := by
    cases buffer.dropWhile isSpace with
    | nil => exact .inl rfl
    | cons b rest =>
        simp only [sign]
        split_ifs <;> simp
  unfold toInt32
  rcases hsign with h | h <;> rw [h] <;> omega

theorem writeParam_determined_iff {α : Type} (param : α) {scan : List UInt8 → α}
    (hstops : Stops buffer → ∀ behind, scan (buffer ++ behind) = scan buffer)
    (hdigit : ¬ Stops buffer → scan (buffer ++ [digit 0, 0]) ≠ scan (buffer ++ [digit 1, 0])) :
    Determined (fun behind => writeParam env heap buffer behind param scan) ↔
      Decided env heap buffer := by
  unfold Determined Decided
  rcases halloc : kmalloc env heap with ⟨_ | str, heap'⟩
  · simp [writeParam, halloc]
  by_cases hcopy : env.copied buffer.length < buffer.length
  · simp [writeParam, halloc, hcopy]
  by_cases hempty : buffer = []
  · simp [writeParam, halloc, hempty, require]
  · have hlen : buffer.length ≠ 0 := by simpa using hempty
    have hrun : ∀ behind, (writeParam env heap buffer behind param scan).map Result.param =
        .ok (scan (buffer ++ behind)) := by
      intro behind
      simp only [writeParam, halloc, if_neg hcopy, require_of hlen, ok_bind]
      rfl
    simp only [hrun, Except.ok.injEq, reduceCtorEq, hcopy, hempty, false_or]
    constructor
    · intro hsame
      by_contra hopen
      exact hdigit hopen (hsame _ _ (by simp) (by simp))
    · intro hend behind behind' _ _
      rw [hstops hend, hstops hend]

/-- What a write leaves depends on the written bytes and the old value alone exactly
when the scan is not reached or comes to an end among the bytes. -/
theorem myProcWrite_determined_iff (env : Env) (heap : Heap) (buffer : List UInt8) (param : ℤ)
    (params : SolA.Params) :
    (Determined (fun behind => myProcWrite env heap buffer behind param) ↔
        Decided env heap buffer) ∧
      (Determined (fun behind => SolA.myProcWrite env heap buffer behind params .myProc1) ↔
        Decided env heap buffer) ∧
      (Determined (fun behind => SolA.myProcWrite env heap buffer behind params .myProc2) ↔
        Decided env heap buffer) ∧
      Determined (fun behind => SolA.myProcWrite env heap buffer behind params .other) := by
  refine ⟨?_, ?_, ?_, fun _ _ _ _ => rfl⟩
  · exact writeParam_determined_iff param (fun h behind => sscanf_append behind param h)
      (sscanf_digit_ne param)
  · simp only [SolA.myProcWrite]
    refine writeParam_determined_iff params (fun h behind => ?_) fun h heq => ?_
    · rw [sscanf_append behind _ h]
    · exact sscanf_digit_ne _ h (congrArg SolA.Params.param1 heq)
  · simp only [SolA.myProcWrite]
    refine writeParam_determined_iff params (fun h behind => ?_) fun h heq => ?_
    · rw [sscanf_append behind _ h]
    · exact sscanf_digit_ne _ h (congrArg SolA.Params.param2 heq)

/-- "12" without a newline, before a terminator and before the digit 3. -/
theorem unterminated_value_differs :
    (myProcWrite Env.calm ⟨0, []⟩ [49, 50] [0] 100).map Result.param = .ok 12 ∧
      (myProcWrite Env.calm ⟨0, []⟩ [49, 50] [51, 0] 100).map Result.param = .ok 123 ∧
      ¬ Determined fun behind => myProcWrite Env.calm ⟨0, []⟩ [49, 50] behind 100 := by
  refine ⟨by decide, by decide, fun hsame => ?_⟩
  have heq := hsame [0] [51, 0] (by decide) (by decide)
  exact absurd heq (by decide)

end LddSamples.Debug.Proc

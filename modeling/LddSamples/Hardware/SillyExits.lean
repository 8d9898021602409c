import LddSamples.Hardware.Silly

/-!
# The window and the exits of lab5_silly

Which part of the window a transfer reaches, and what the calls leave behind on each of
their exits. A position behind the window makes the count wrap, and the test for a
negative count that should catch it is never true.
-/

namespace LddSamples.Hardware.Silly

open Kernel CArith Outcome

variable {env : Env} {heap : Heap} {window : ℕ → UInt8} {mode : Mode} {minor pos count : ℕ}
  {data : List UInt8}

/-! ## The clamp -/

/-- A `loff_t` that is not negative, and a `size_t`. -/
structure Sized (pos count : ℕ) : Prop where
  pos_lt : pos < 9223372036854775808
  count_lt : count < 18446744073709551616

/-- The position is not behind the end of the window, and `isa_addr + count` does not wrap. -/
def Reachable (pos count : ℕ) : Prop :=
  pos ≤ ISA_MAX - ISA_BASE ∧ ISA_BASE + pos + count < 18446744073709551616

instance (pos count : ℕ) : Decidable (Reachable pos count) := inferInstanceAs (Decidable (_ ∧ _))

theorem isaAddr_eq (h : Sized pos count) : toUInt64 ((ISA_BASE : ℤ) + pos) = ISA_BASE + pos := by
  have hbase := ISA_BASE_eq
  have hpos := h.pos_lt
  rw [← Nat.cast_add]
  exact toUInt64_natCast (by omega)

theorem clampCount_of_reachable (h : Reachable pos count) :
    clampCount (ISA_BASE + pos) count = min count (ISA_MAX - ISA_BASE - pos) := by
  have hbase := ISA_BASE_eq
  have hmax := ISA_MAX_eq
  obtain ⟨hpos, hwrap⟩ := h
  have hsum : toUInt64 ((ISA_BASE + pos : ℕ) + (count : ℤ)) = ISA_BASE + pos + count := by
    rw [← Nat.cast_add]
    exact toUInt64_natCast hwrap
  have hrest := toUInt64_of_mem (x := (ISA_MAX : ℤ) - (ISA_BASE + pos : ℕ)) (by omega) (by omega)
  rw [clampCount, hsum]
  split <;> omega

/-- Elsewhere the count ends up larger than any allocation. -/
theorem clampCount_of_not_reachable (h : Sized pos count) (hfar : ¬ Reachable pos count) :
    KMALLOC_MAX_SIZE < clampCount (ISA_BASE + pos) count := by
  have hbase := ISA_BASE_eq
  have hmax := ISA_MAX_eq
  have hkmalloc := KMALLOC_MAX_SIZE_eq
  obtain ⟨hpos, hcount⟩ := h
  unfold Reachable at hfar
  unfold clampCount toUInt64
  split <;> omega

theorem clampCount_le_iff (h : Sized pos count) :
    clampCount (ISA_BASE + pos) count ≤ KMALLOC_MAX_SIZE ↔ Reachable pos count := by
  have hbase := ISA_BASE_eq
  have hmax := ISA_MAX_eq
  have hkmalloc := KMALLOC_MAX_SIZE_eq
  constructor
  · intro hle
    by_contra hfar
    exact absurd hle (Nat.not_le.mpr (clampCount_of_not_reachable h hfar))
  · intro hreach
    rw [clampCount_of_reachable hreach]
    omega

/-- How many bytes there are to transfer: none at the end of the window or behind it. -/
def available (pos count : ℕ) : ℕ := min count (ISA_MAX - ISA_BASE - pos)

theorem clampCount_eq_available (h : Reachable pos count) :
    clampCount (ISA_BASE + pos) count = available pos count := clampCount_of_reachable h

theorem available_fits (h : Reachable pos count) :
    pos + available pos count ≤ ISA_MAX - ISA_BASE := by
  have hpos := h.1
  unfold available
  omega

theorem available_length (pos : ℕ) (data : List UInt8) :
    (data.take (available pos data.length)).length = available pos data.length :=
  List.length_take_of_le (Nat.min_le_left ..)

theorem toInt32_available (pos count : ℕ) :
    toInt32 (available pos count) = available pos count := by
  have hbase := ISA_BASE_eq
  have hmax := ISA_MAX_eq
  refine toInt32_of_mem (by omega) ?_
  unfold INT_MAX available
  omega

theorem available_ne_error (pos count : ℕ) : (available pos count : ℤ) ≠ -ENOMEM := by
  have henomem : ENOMEM = 12 := rfl
  omega

theorem cast_isaAddr_sub (pos : ℕ) : ((ISA_BASE + pos : ℕ) : ℤ) - ISA_BASE = pos := by
  rw [Nat.cast_add, add_sub_cancel_left]

/-! ## The calls, on every exit -/

theorem kmallocCount_clamp (env : Env) (heap : Heap) (h : Sized pos count) :
    kmallocCount env heap (clampCount (ISA_BASE + pos) count) =
      (if env.grants heap.requests = true ∧ Reachable pos count then some heap.requests else none,
        ⟨heap.requests + 1, heap.freed⟩) := by
  by_cases hreach : Reachable pos count
  · rw [kmallocCount, if_pos ((clampCount_le_iff h).mpr hreach)]
    simp [kmalloc, hreach]
  · rw [kmallocCount, if_neg (mt (clampCount_le_iff h).mp hreach)]
    simp [hreach]

theorem sillyReadExit_of_not_granted (minor : ℕ) (window : ℕ → UInt8) (h : Sized pos count)
    (hfails : ¬ (env.grants heap.requests = true ∧ Reachable pos count)) :
    sillyReadExit env heap minor window count pos =
      .ok ⟨⟨-ENOMEM, pos, []⟩, none, ⟨heap.requests + 1, heap.freed⟩⟩ := by
  simp only [sillyReadExit, isaAddr_eq h, kmallocCount_clamp env heap h, if_neg hfails]

theorem sillyReadExit_of_granted (minor : ℕ) (window : ℕ → UInt8) (h : Sized pos count)
    (hgrants : env.grants heap.requests = true) (hreach : Reachable pos count) :
    sillyReadExit env heap minor window count pos =
      match Mode.ofMinor minor with
      | none => .ok ⟨⟨-EINVAL, pos, []⟩, some heap.requests, ⟨heap.requests + 1, heap.freed⟩⟩
      | some _ =>
          let n := available pos count
          let retval := if 0 < n ∧ env.copied n < n then -EFAULT else (n : ℤ)
          .ok ⟨⟨retval, pos + retval, (ByteMap.window window pos n).take (env.copied n)⟩,
            some heap.requests, ⟨heap.requests + 1, heap.freed ++ [heap.requests]⟩⟩ := by
  have halloc := kmallocCount_clamp env heap h
  rw [if_pos ⟨hgrants, hreach⟩, clampCount_eq_available hreach] at halloc
  simp only [sillyReadExit, isaAddr_eq h, clampCount_eq_available hreach, halloc, cast_isaAddr_sub,
    toInt32_available, kfree]
  cases Mode.ofMinor minor with
  | none => rfl
  | some mode =>
      have hkbuf := readMode_eq window
        (width_downgrade_dvd (ISA_BASE + pos) (available pos count) mode) (available_fits hreach)
      simp only [hkbuf, ok_bind, gt_iff_lt, Nat.cast_pos]

theorem sillyWriteExit_of_not_granted (minor : ℕ) (window : ℕ → UInt8)
    (h : Sized pos data.length)
    (hfails : ¬ (env.grants heap.requests = true ∧ Reachable pos data.length)) :
    sillyWriteExit true env heap minor window data pos =
      .ok ⟨⟨-ENOMEM, pos, window⟩, none, ⟨heap.requests + 1, heap.freed⟩⟩ := by
  simp only [sillyWriteExit, isaAddr_eq h, kmallocCount_clamp env heap h, if_neg hfails,
    Bool.true_eq_false, if_false]

theorem sillyWriteExit_of_granted (minor : ℕ) (window : ℕ → UInt8) (h : Sized pos data.length)
    (hgrants : env.grants heap.requests = true) (hreach : Reachable pos data.length) :
    sillyWriteExit true env heap minor window data pos =
      let n := available pos data.length
      let freed : Heap := ⟨heap.requests + 1, heap.freed ++ [heap.requests]⟩
      if env.copied n < n then .ok ⟨⟨-EFAULT, pos, window⟩, some heap.requests, freed⟩
      else
        match Mode.ofMinor minor with
        | none => .ok ⟨⟨-EINVAL, pos, window⟩, some heap.requests, ⟨heap.requests + 1, heap.freed⟩⟩
        | some mode => .ok ⟨⟨n, pos + n, strided (mode.effective pos n).width window pos
            (data.take n)⟩, some heap.requests, freed⟩ := by
  have halloc := kmallocCount_clamp env heap h
  rw [if_pos ⟨hgrants, hreach⟩, clampCount_eq_available hreach] at halloc
  simp only [sillyWriteExit, isaAddr_eq h, clampCount_eq_available hreach, halloc,
    Bool.true_eq_false, if_false, cast_isaAddr_sub, toInt32_available, kfree]
  split
  · rfl
  cases Mode.ofMinor minor with
  | none => rfl
  | some mode =>
      have hlength := available_length pos data
      have hstored := writeMode_eq window (data.take (available pos data.length))
        (hlength.symm ▸ width_downgrade_dvd (ISA_BASE + pos) (available pos data.length) mode)
        (hlength.symm ▸ available_fits hreach)
      rw [hlength] at hstored
      simp only [hstored, ok_bind, Mode.effective]

/-! ## What a transfer reaches -/

theorem sillyRead_of_not_granted (h : Sized pos count)
    (hfails : ¬ (env.grants 0 = true ∧ Reachable pos count)) :
    sillyRead env minor window count pos = .ok ⟨-ENOMEM, pos, []⟩ := by
  rw [sillyRead, sillyReadExit_of_not_granted minor window h hfails]
  rfl

theorem sillyRead_of_granted (minor : ℕ) (window : ℕ → UInt8) (h : Sized pos count)
    (hgrants : env.grants 0 = true) (hreach : Reachable pos count) :
    sillyRead env minor window count pos =
      match Mode.ofMinor minor with
      | none => .ok ⟨-EINVAL, pos, []⟩
      | some _ =>
          let n := available pos count
          let retval := if 0 < n ∧ env.copied n < n then -EFAULT else (n : ℤ)
          .ok ⟨retval, pos + retval, (ByteMap.window window pos n).take (env.copied n)⟩ := by
  rw [sillyRead, sillyReadExit_of_granted minor window h hgrants hreach]
  cases Mode.ofMinor minor <;> rfl

theorem sillyWrite_of_not_granted (h : Sized pos data.length)
    (hfails : ¬ (env.grants 0 = true ∧ Reachable pos data.length)) :
    sillyWrite true env minor window data pos = .ok ⟨-ENOMEM, pos, window⟩ := by
  rw [sillyWrite, sillyWriteExit_of_not_granted minor window h hfails]
  rfl

theorem sillyWrite_of_granted (minor : ℕ) (window : ℕ → UInt8) (h : Sized pos data.length)
    (hgrants : env.grants 0 = true) (hreach : Reachable pos data.length) :
    sillyWrite true env minor window data pos =
      if env.copied (available pos data.length) < available pos data.length then
        .ok ⟨-EFAULT, pos, window⟩
      else
        match Mode.ofMinor minor with
        | none => .ok ⟨-EINVAL, pos, window⟩
        | some mode =>
            let n := available pos data.length
            .ok ⟨n, pos + n,
              strided (mode.effective pos n).width window pos (data.take n)⟩ := by
  rw [sillyWrite, sillyWriteExit_of_granted minor window h hgrants hreach]
  dsimp only
  split
  · rfl
  · cases Mode.ofMinor minor <;> rfl

/-- Whatever the environment decides, a call comes back: no access leaves the window. -/
theorem sillyRead_returns (h : Sized pos count) (env : Env) (minor : ℕ) (window : ℕ → UInt8) :
    ∃ r, sillyRead env minor window count pos = .ok r := by
  by_cases hgranted : env.grants 0 = true ∧ Reachable pos count
  · rw [sillyRead_of_granted _ _ h hgranted.1 hgranted.2]
    cases Mode.ofMinor minor <;> exact ⟨_, rfl⟩
  · exact ⟨_, sillyRead_of_not_granted h hgranted⟩

/-- A write has no effect, or it stores what there is room for at the multiples of the width
of its accesses. -/
def WriteEffect (minor : ℕ) (window : ℕ → UInt8) (data : List UInt8) (pos : ℕ)
    (window' : ℕ → UInt8) : Prop :=
  window' = window ∨ ∃ mode, Mode.ofMinor minor = some mode ∧
    window' = strided (mode.effective pos (available pos data.length)).width window pos
      (data.take (available pos data.length))

theorem sillyWrite_returns (h : Sized pos data.length) (capable : Bool) (env : Env) (minor : ℕ)
    (window : ℕ → UInt8) : ∃ r, sillyWrite capable env minor window data pos = .ok r ∧
      WriteEffect minor window data pos r.window := by
  cases capable with
  | false => exact ⟨⟨-EPERM, pos, window⟩, rfl, .inl rfl⟩
  | true =>
      by_cases hgranted : env.grants 0 = true ∧ Reachable pos data.length
      · rw [sillyWrite_of_granted _ _ h hgranted.1 hgranted.2]
        split
        · exact ⟨_, rfl, .inl rfl⟩
        · cases hmode : Mode.ofMinor minor with
          | none => exact ⟨_, rfl, .inl rfl⟩
          | some mode => exact ⟨_, rfl, .inr ⟨mode, hmode, rfl⟩⟩
      · exact ⟨_, sillyWrite_of_not_granted h hgranted, .inl rfl⟩

/-- A read returns the bytes from the position to the end of the window, as many as it was
asked for: behind the end it returns 0. -/
def ReadsWindow (env : Env) (mode : Mode) (window : ℕ → UInt8) (count pos : ℕ) : Prop :=
  ∃ r, sillyRead env mode.minor window count pos = .ok r ∧ r.ret = available pos count ∧
    r.out = ByteMap.window window pos (available pos count)

/-- A privileged write stores as many bytes there, and no others. -/
def WritesWindow (env : Env) (mode : Mode) (window : ℕ → UInt8) (data : List UInt8) (pos : ℕ) :
    Prop :=
  ∃ r, sillyWrite true env mode.minor window data pos = .ok r ∧
    r.ret = available pos data.length ∧ r.pos = pos + available pos data.length ∧
    r.window = ByteMap.overwrite window pos (data.take (available pos data.length))

/-- The bytes that the accesses of a write leave out are in the window already. -/
def SkippedThere (mode : Mode) (window : ℕ → UInt8) (data : List UInt8) (pos : ℕ) : Prop :=
  let bytes := data.take (available pos data.length)
  ∀ i, (hi : i < bytes.length) →
    i % (mode.effective pos (available pos data.length)).width ≠ 0 → window (pos + i) = bytes[i]

theorem readsWindow_iff (h : Sized pos count) (hgrants : env.grants 0 = true)
    (hcopied : ∀ n, n ≤ env.copied n) :
    ReadsWindow env mode window count pos ↔ Reachable pos count := by
  constructor
  · rintro ⟨r, hr, hret, -⟩
    by_contra hfar
    rw [sillyRead_of_not_granted h fun hgranted => hfar hgranted.2] at hr
    cases hr
    exact available_ne_error pos count hret.symm
  · intro hreach
    have hfault : ¬ (0 < available pos count ∧
        env.copied (available pos count) < available pos count) :=
      fun hfault => Nat.not_lt.mpr (hcopied _) hfault.2
    have hrun := sillyRead_of_granted mode.minor window h hgrants hreach
    simp only [Mode.ofMinor_minor, if_neg hfault] at hrun
    refine ⟨_, hrun, rfl, ?_⟩
    exact List.take_of_length_le (by rw [ByteMap.window_length]; exact hcopied _)

theorem writesWindow_iff (h : Sized pos data.length) (hgrants : env.grants 0 = true)
    (hcopied : ∀ n, n ≤ env.copied n) :
    WritesWindow env mode window data pos ↔
      Reachable pos data.length ∧ SkippedThere mode window data pos := by
  have hstrided := strided_eq_overwrite_iff
    (mode.effective pos (available pos data.length)).width window pos
    (data.take (available pos data.length))
  by_cases hreach : Reachable pos data.length
  · have hrun := sillyWrite_of_granted mode.minor window h hgrants hreach
    simp only [Mode.ofMinor_minor, if_neg (Nat.not_lt.mpr (hcopied _))] at hrun
    rw [and_iff_right hreach, SkippedThere, ← hstrided]
    constructor
    · rintro ⟨r, hr, -, -, hstored⟩
      obtain rfl := Except.ok.inj (hrun.symm.trans hr)
      exact hstored
    · intro hstored
      exact ⟨_, hrun, rfl, rfl, hstored⟩
  · refine iff_of_false ?_ fun hright => hreach hright.1
    rintro ⟨r, hr, hret, -⟩
    rw [sillyWrite_of_not_granted h fun hgranted => hreach hgranted.2] at hr
    cases hr
    exact available_ne_error pos data.length hret.symm

/-- No access ever leaves the window, and a write changes no byte but those of its accesses.
With memory and a good buffer, a call transfers what there is exactly when its position is not
behind the end, its range does not wrap and, for a write, the bytes that its accesses leave out
are there. -/
theorem window_right_iff (env : Env) (mode : Mode) (window : ℕ → UInt8) (data : List UInt8)
    (pos count : ℕ) (hread : Sized pos count) (hwrite : Sized pos data.length) :
    ((∀ env minor, ∃ r, sillyRead env minor window count pos = .ok r) ∧
      ∀ capable env minor, ∃ r, sillyWrite capable env minor window data pos = .ok r ∧
        WriteEffect minor window data pos r.window) ∧
    (env.grants 0 = true → (∀ n, n ≤ env.copied n) →
      (ReadsWindow env mode window count pos ↔ Reachable pos count) ∧
        (WritesWindow env mode window data pos ↔
          Reachable pos data.length ∧ SkippedThere mode window data pos)) :=
  ⟨⟨fun env minor => sillyRead_returns hread env minor window,
      fun capable env minor => sillyWrite_returns hwrite capable env minor window⟩,
    fun hgrants hcopied =>
      ⟨readsWindow_iff hread hgrants hcopied, writesWindow_iff hwrite hgrants hcopied⟩⟩

theorem window_right_iff_end :
    ((∀ env minor, ∃ r, sillyRead env minor (fun _ => 0) 5 393216 = .ok r) ∧
      ∀ capable env minor, ∃ r, sillyWrite capable env minor (fun _ => 0) [1, 2] 393216 = .ok r ∧
        WriteEffect minor (fun _ => 0) [1, 2] 393216 r.window) ∧
    (ReadsWindow Env.calm .M_8 (fun _ => 0) 5 393216 ↔ Reachable 393216 5) ∧
      (WritesWindow Env.calm .M_8 (fun _ => 0) [1, 2] 393216 ↔
        Reachable 393216 2 ∧ SkippedThere .M_8 (fun _ => 0) [1, 2] 393216) := by
  have hright := window_right_iff Env.calm .M_8 (fun _ => 0) [1, 2] 393216 5
    ⟨by decide, by decide⟩ ⟨by decide, by decide⟩
  exact ⟨hright.1, hright.2 rfl fun _ => le_rfl⟩

/-- One byte behind the end of the window. -/
theorem behind_end_no_memory :
    sillyRead Env.calm Mode.M_8.minor (fun _ => 0) 1 393217 = .ok ⟨-12, 393217, []⟩ ∧
      ¬ ReadsWindow Env.calm .M_8 (fun _ => 0) 1 393217 ∧
      ¬ WritesWindow Env.calm .M_8 (fun _ => 0) [7] 393217 := by
  have hfar : ¬ Reachable 393217 1 := fun hreach => absurd hreach.1 (by decide)
  have hsized : Sized 393217 1 := ⟨by decide, by decide⟩
  refine ⟨sillyRead_of_not_granted hsized fun hgranted => hfar hgranted.2, ?_, ?_⟩
  · rwa [readsWindow_iff hsized rfl fun _ => le_rfl]
  · rw [writesWindow_iff hsized rfl fun _ => le_rfl]
    exact fun hright => hfar hright.1

/-! ## What an exit leaves behind -/

/-- A call that returns an error has not moved the position, and the buffer that a call got
has been freed, once. -/
structure Cleans (heap : Heap) (pos ret pos' : ℤ) (kbuf : Option ℕ) (heap' : Heap) : Prop where
  position : ret < 0 → pos' = pos
  freed : heap'.freed = heap.freed ++ kbuf.toList

def ReadCleans (env : Env) (heap : Heap) (minor : ℕ) (window : ℕ → UInt8) (count : ℕ) (pos : ℤ) :
    Prop :=
  ∀ e, sillyReadExit env heap minor window count pos = .ok e →
    Cleans heap pos e.result.ret e.result.pos e.kbuf e.heap

def WriteCleans (capable : Bool) (env : Env) (heap : Heap) (minor : ℕ) (window : ℕ → UInt8)
    (buf : List UInt8) (pos : ℤ) : Prop :=
  ∀ e, sillyWriteExit capable env heap minor window buf pos = .ok e →
    Cleans heap pos e.result.ret e.result.pos e.kbuf e.heap

theorem Mode.ofMinor_eq_none_iff : Mode.ofMinor minor = none ↔ 4 ≤ minor := by
  rcases minor with _ | _ | _ | _ | n <;> simp [Mode.ofMinor]

theorem Mode.lt_of_ofMinor (h : Mode.ofMinor minor = some mode) : minor < 4 := by
  by_contra hlarge
  rw [Mode.ofMinor_eq_none_iff.mpr (not_lt.mp hlarge)] at h
  cases h

/-- A buffer that is not freed shows. -/
theorem not_freed (heap : Heap) : heap.freed ≠ heap.freed ++ (some heap.requests).toList := by
  intro heq
  have hlength := congrArg List.length heq
  simp at hlength

theorem readCleans_iff (h : Sized pos count) : ReadCleans env heap minor window count pos ↔
    (env.grants heap.requests = true → Reachable pos count →
      minor < 4 ∧ available pos count ≤ env.copied (available pos count)) := by
  by_cases hgranted : env.grants heap.requests = true ∧ Reachable pos count
  · have hrun := sillyReadExit_of_granted minor window h hgranted.1 hgranted.2
    simp only [ReadCleans, hgranted.1, hgranted.2, true_imp_iff]
    cases hminor : Mode.ofMinor minor with
    | none =>
        have hlarge := Mode.ofMinor_eq_none_iff.mp hminor
        simp only [hminor] at hrun
        refine iff_of_false (fun hclean => ?_) fun hcond => by omega
        exact not_freed heap (hclean _ hrun).freed
    | some mode =>
        have hsmall := Mode.lt_of_ofMinor hminor
        simp only [hminor] at hrun
        simp only [hsmall, true_and]
        by_cases hfault : 0 < available pos count ∧
            env.copied (available pos count) < available pos count
        · rw [if_pos hfault] at hrun
          refine iff_of_false (fun hclean => ?_) (Nat.not_le.mpr hfault.2)
          have hpos : (pos : ℤ) + -EFAULT = pos :=
            (hclean _ hrun).position (show -EFAULT < 0 by decide)
          have hefault : EFAULT = 14 := rfl
          omega
        · rw [if_neg hfault] at hrun
          refine iff_of_true (fun e he => ?_) (by omega)
          obtain rfl := Except.ok.inj (hrun.symm.trans he)
          exact ⟨fun hneg => absurd hneg (Int.not_lt.mpr (Int.natCast_nonneg _)), rfl⟩
  · refine iff_of_true (fun e he => ?_) fun hgrants hreach => absurd ⟨hgrants, hreach⟩ hgranted
    rw [sillyReadExit_of_not_granted minor window h hgranted] at he
    cases he
    exact ⟨fun _ => rfl, (List.append_nil _).symm⟩

theorem writeCleans_iff (capable : Bool) (h : Sized pos data.length) :
    WriteCleans capable env heap minor window data pos ↔
      (capable = true → env.grants heap.requests = true → Reachable pos data.length →
        available pos data.length ≤ env.copied (available pos data.length) → minor < 4) := by
  cases capable with
  | false =>
      refine iff_of_true (fun e he => ?_) nofun
      cases he
      exact ⟨fun _ => rfl, (List.append_nil _).symm⟩
  | true =>
      by_cases hgranted : env.grants heap.requests = true ∧ Reachable pos data.length
      · have hrun := sillyWriteExit_of_granted minor window h hgranted.1 hgranted.2
        simp only [WriteCleans, hgranted.1, hgranted.2, true_imp_iff]
        dsimp only at hrun
        split at hrun
        · next hfault =>
            refine iff_of_true (fun e he => ?_) fun hcopied =>
              absurd hfault (Nat.not_lt.mpr hcopied)
            obtain rfl := Except.ok.inj (hrun.symm.trans he)
            exact ⟨fun _ => rfl, rfl⟩
        · next hcopied =>
            simp only [Nat.not_lt.mp hcopied, true_imp_iff]
            cases hminor : Mode.ofMinor minor with
            | none =>
                have hlarge := Mode.ofMinor_eq_none_iff.mp hminor
                simp only [hminor] at hrun
                refine iff_of_false (fun hclean => ?_) (Nat.not_lt.mpr hlarge)
                exact not_freed heap (hclean _ hrun).freed
            | some mode =>
                simp only [hminor] at hrun
                refine iff_of_true (fun e he => ?_) (Mode.lt_of_ofMinor hminor)
                obtain rfl := Except.ok.inj (hrun.symm.trans he)
                exact ⟨fun hneg => absurd hneg (Int.not_lt.mpr (Int.natCast_nonneg _)), rfl⟩
      · refine iff_of_true (fun e he => ?_) fun _ hgrants hreach =>
          absurd ⟨hgrants, hreach⟩ hgranted
        rw [sillyWriteExit_of_not_granted minor window h hgranted] at he
        cases he
        exact ⟨fun _ => rfl, (List.append_nil _).symm⟩

/-- A read leaves things clean when its buffer is not granted, or its minor number is one
of the four and nothing of the user's is missing; a write also when something is. -/
theorem exits_clean_iff (capable : Bool) (env : Env) (heap : Heap) (minor : ℕ)
    (window : ℕ → UInt8) (data : List UInt8) (pos count : ℕ) (hread : Sized pos count)
    (hwrite : Sized pos data.length) :
    (ReadCleans env heap minor window count pos ↔
      (env.grants heap.requests = true → Reachable pos count →
        minor < 4 ∧ available pos count ≤ env.copied (available pos count))) ∧
    (WriteCleans capable env heap minor window data pos ↔
      (capable = true → env.grants heap.requests = true → Reachable pos data.length →
        available pos data.length ≤ env.copied (available pos data.length) → minor < 4)) :=
  ⟨readCleans_iff hread, writeCleans_iff capable hwrite⟩

theorem exits_clean_iff_byte :
    (ReadCleans Env.calm ⟨0, []⟩ 0 (fun _ => 0) 1 (0 : ℕ) ↔
      (Env.calm.grants 0 = true → Reachable 0 1 →
        0 < 4 ∧ available 0 1 ≤ Env.calm.copied (available 0 1))) ∧
    (WriteCleans true Env.calm ⟨0, []⟩ 0 (fun _ => 0) [7] (0 : ℕ) ↔
      (true = true → Env.calm.grants 0 = true → Reachable 0 1 →
        available 0 1 ≤ Env.calm.copied (available 0 1) → 0 < 4)) :=
  exits_clean_iff true Env.calm ⟨0, []⟩ 0 (fun _ => 0) [7] 0 1 ⟨by decide, by decide⟩
    ⟨by decide, by decide⟩

/-- A read into a bad buffer moves the position back by 14, and a write through a minor
number that there is no mode for keeps its buffer. -/
theorem bad_exits :
    ¬ ReadCleans ⟨false, fun _ => true, fun _ => 0⟩ ⟨0, []⟩ 0 (fun _ => 0) 1 (0 : ℕ) ∧
      ¬ WriteCleans true Env.calm ⟨0, []⟩ 4 (fun _ => 0) [7] (0 : ℕ) := by
  have hsized : Sized 0 1 := ⟨by decide, by decide⟩
  have hreach : Reachable 0 1 := by decide
  constructor
  · rw [readCleans_iff hsized]
    intro hcond
    exact absurd (hcond rfl hreach).2 (by decide)
  · rw [writeCleans_iff true hsized]
    intro hcond
    exact absurd (hcond rfl rfl hreach le_rfl) (by decide)

end LddSamples.Hardware.Silly

import LddSamples.Kernel.Basic
import LddSamples.Library.Decimal
import LddSamples.Library.SeqIterator

/-!
# The iterators of lab11_seq and lab8_seqfile

Both keep their place in the position that seq_file saves. The one of lab11_seq has a copy
of it in an object of its own, which lives from `start` to `stop`; the one of lab8_seqfile
points to `jiffies` and has nothing to keep.
-/

namespace LddSamples.Debug.SeqRestart

open Kernel CArith Decimal SeqIterator

/-- The position after this one, a `loff_t`. -/
def nextPos (pos : ℤ) : ℤ := toInt64 (pos + 1)

/-! ## lab11_seq -/

/-- The heap, and the content of the objects on it. -/
structure Ct where
  heap : Heap
  spos : ℕ → ℤ

def ctSeqStart (env : Env) (s : Ct) (pos : ℤ) : Option ℕ × ℤ × Ct :=
  match kmalloc env s.heap with
  | (none, heap) => (none, pos, { s with heap := heap })
  | (some v, heap) => (some v, pos, ⟨heap, Function.update s.spos v pos⟩)

def ctSeqNext (s : Ct) (v : ℕ) (_pos : ℤ) : Option ℕ × ℤ × Ct :=
  let pos := nextPos (s.spos v)
  (some v, pos, { s with spos := Function.update s.spos v pos })

/-- `kfree` of no object does nothing. -/
def ctSeqStop (s : Ct) : Option ℕ → Ct
  | none => s
  | some v => { s with heap := kfree s.heap v }

/-- `"%Ld\n"`. -/
def ctLine (n : ℤ) : List UInt8 := text n ++ [10]

def ctSeqShow (s : Ct) (v : ℕ) : List UInt8 := ctLine (s.spos v)

def ctSeqOps (env : Env) : Ops Ct ℕ ℤ (List UInt8) :=
  ⟨ctSeqStart env, ctSeqNext, ctSeqStop, ctSeqShow⟩

/-- Reads from a file that has just been opened. -/
def ctReads (env : Env) (sizes : List ℕ) : Session Ct ℤ (List UInt8) :=
  (ctSeqOps env).reads sizes ⟨⟨⟨0, []⟩, fun _ => 0⟩, 0, [], false⟩

/-! ## lab8_seqfile -/

/-- Both operations wait for `jiffies` to advance, while there are items left. The state is
the number of times that the driver has waited. -/
def waitForItem (items : ℤ) (waits : ℕ) (pos : ℤ) : Option Unit × ℤ × ℕ :=
  if pos < items then (some (), pos, waits + 1) else (none, pos, waits)

def xBusySeqStart (items : ℤ) (waits : ℕ) (pos : ℤ) : Option Unit × ℤ × ℕ :=
  waitForItem items waits pos

def xBusySeqNext (items : ℤ) (waits : ℕ) (_v : Unit) (pos : ℤ) : Option Unit × ℤ × ℕ :=
  waitForItem items waits (nextPos pos)

/-- `"jiffies = %lu.\n"`. -/
def jiffiesLine (jiffies : ℕ) : List UInt8 :=
  [106, 105, 102, 102, 105, 101, 115, 32, 61, 32] ++ decimal jiffies ++ [46, 10]

def xBusySeqOps (items : ℤ) (jiffies : ℕ → ℕ) : Ops ℕ Unit ℤ (List UInt8) :=
  ⟨xBusySeqStart items, xBusySeqNext items, fun waits _ => waits,
    fun waits _ => jiffiesLine (jiffies waits)⟩

def xBusyReads (items : ℤ) (jiffies : ℕ → ℕ) (sizes : List ℕ) : Session ℕ ℤ (List UInt8) :=
  (xBusySeqOps items jiffies).reads sizes ⟨0, 0, [], false⟩

/-! ## The numbers -/

/-- The objects that were granted are freed, except for the one that is in use, which holds
the position. -/
def Held (env : Env) (s : Ct) (o : Option ℕ) (pos : ℤ) : Prop :=
  s.heap.freed ++ o.toList = (List.range s.heap.requests).filter env.grants ∧
    ∀ v ∈ o, s.spos v = pos

def AllFreed (env : Env) (s : Ct) : Prop :=
  s.heap.freed = (List.range s.heap.requests).filter env.grants

variable {env : Env}

theorem ctSeqStart_held {s : Ct} (h : AllFreed env s) (pos : ℤ) :
    (ctSeqStart env s pos).2.1 = pos ∧
      Held env (ctSeqStart env s pos).2.2 (ctSeqStart env s pos).1 pos := by
  unfold AllFreed at h
  unfold ctSeqStart kmalloc
  cases hgrant : env.grants s.heap.requests with
  | false =>
      refine ⟨rfl, ?_, fun v hv => by cases hv⟩
      simp [List.range_succ, hgrant, h]
  | true =>
      refine ⟨rfl, ?_, fun v hv => ?_⟩
      · simp [List.range_succ, hgrant, h]
      · obtain rfl := Option.some.inj hv
        exact Function.update_self ..

/-- The position exists twice, and the two go on together. -/
theorem ctSeqOps_inStep (env : Env) :
    InStep (ctSeqOps env) nextPos (fun pos r => r = ctLine pos) (AllFreed env) (Held env)
      (fun _ _ => True) where
  start := fun _ pos h => ctSeqStart_held h pos
  next := by
    rintro s v pos ⟨hfreed, hspos⟩
    have hsame : s.spos v = pos := hspos v rfl
    refine ⟨congrArg nextPos hsame, hfreed, fun w hw => ?_⟩
    obtain rfl := Option.some.inj hw
    exact (Function.update_self ..).trans (congrArg nextPos hsame)
  shown := fun _ v _ h => congrArg ctLine (h.2 v rfl)
  stop := by
    rintro s (_ | v) pos ⟨hfreed, -⟩
    · exact (List.append_nil _).symm.trans hfreed
    · exact hfreed
  ends := fun _ _ _ _ => trivial

theorem nextPos_iterate (n : ℕ) (hn : n < 9223372036854775808) : nextPos^[n] 0 = n := by
  induction n with
  | zero => rfl
  | succ n ih =>
      rw [Function.iterate_succ_apply', ih (by omega), nextPos,
        toInt64_of_mem (by omega) (by omega)]
      exact (Nat.cast_succ n).symm

theorem length_le_flatten {records : List (List UInt8)} (h : ∀ r ∈ records, 0 < r.length) :
    records.length ≤ records.flatten.length := by
  induction records with
  | nil => exact le_rfl
  | cons r records ih =>
      have hr := h r List.mem_cons_self
      have hrest := ih fun r hr => h r (List.mem_cons_of_mem _ hr)
      rw [List.length_cons, List.flatten_cons, List.length_append]
      omega

theorem ctReads_trail (env : Env) (sizes : List ℕ) :
    Trail nextPos (fun pos r => r = ctLine pos) 0 (ctReads env sizes).output
        (ctReads env sizes).pos ∧
      AllFreed env (ctReads env sizes).state := by
  have hinit : AllFreed env ⟨⟨0, []⟩, fun _ => 0⟩ := rfl
  obtain ⟨records, houtput, htrail, hfreed⟩ :=
    (ctSeqOps_inStep env).reads (t := ⟨_, 0, [], false⟩) hinit sizes
  rw [List.nil_append] at houtput
  rw [← houtput] at htrail
  exact ⟨htrail, hfreed⟩

/-- While the bytes that are read can be counted, the numbers are those from 0 on. -/
theorem ctReads_eq (env : Env) (sizes : List ℕ)
    (hcounted : (ctReads env sizes).output.flatten.length < 9223372036854775808) :
    (ctReads env sizes).output =
      (List.range (ctReads env sizes).output.length).map fun n : ℕ => ctLine n := by
  have hrecords := (trail_eq (ctReads_trail env sizes).1).1
  have hline : ∀ r ∈ (ctReads env sizes).output, 0 < r.length := by
    intro r hr
    rw [hrecords] at hr
    obtain ⟨i, -, rfl⟩ := List.mem_map.mp hr
    simp [ctLine]
  have hlength := length_le_flatten hline
  refine hrecords.trans (List.map_congr_left fun n hn => ?_)
  rw [List.mem_range] at hn
  rw [nextPos_iterate n (by omega)]

/-! ## The items -/

variable {items : ℤ} {jiffies : ℕ → ℕ}

theorem waitForItem_spec (items : ℤ) (waits : ℕ) (pos : ℤ) :
    (waitForItem items waits pos).2.1 = pos ∧
      ((waitForItem items waits pos).1.isNone = true ↔ items ≤ pos) := by
  unfold waitForItem
  split
  · next hbelow => simpa using hbelow
  · next hend => simpa using hend

theorem xBusySeqOps_inStep (items : ℤ) (jiffies : ℕ → ℕ) :
    InStep (xBusySeqOps items jiffies) nextPos (fun pos _ => pos < items) (fun _ => True)
      (fun _ o pos => o.isNone = true ↔ items ≤ pos)
      (fun pos ended => ended = true ↔ items ≤ pos) where
  start := fun waits pos _ => waitForItem_spec items waits pos
  next := fun waits _ pos _ => waitForItem_spec items waits (nextPos pos)
  shown := fun _ _ _ h => by simpa using h
  stop := fun _ _ _ _ => trivial
  ends := fun _ _ _ h => h

/-- Every record advances the position by one, and the last one is below `items`. -/
theorem items_trail {p q : ℤ} {records : List (List UInt8)} (hitems : items ≤ INT_MAX)
    (hp : 0 ≤ p) (h : Trail nextPos (fun pos _ => pos < items) p records q) :
    q = p + records.length ∧ (records ≠ [] → q ≤ items) := by
  induction records generalizing p with
  | nil =>
      obtain rfl : q = p := h
      exact ⟨by simp, fun hne => absurd rfl hne⟩
  | cons r records ih =>
      obtain ⟨hbelow, hrest⟩ := h
      have hmax := INT_MAX_eq
      have hnext : nextPos p = p + 1 := toInt64_of_mem (by omega) (by omega)
      rw [hnext] at hrest
      obtain ⟨hq, hlast⟩ := ih (by omega) hrest
      refine ⟨by rw [hq, List.length_cons]; push_cast; ring, fun _ => ?_⟩
      cases records with
      | nil =>
          rw [hq, List.length_nil]
          push_cast
          omega
      | cons r' records => exact hlast (List.cons_ne_nil _ _)

/-- As many lines are shown as there is room for and items are left. -/
theorem xBusyReads_eq (hitems : items ≤ INT_MAX) (jiffies : ℕ → ℕ) (sizes : List ℕ) :
    (xBusyReads items jiffies sizes).pos = (xBusyReads items jiffies sizes).output.length ∧
      (xBusyReads items jiffies sizes).output.length = min sizes.sum items.toNat ∧
      (sizes ≠ [] →
        ((xBusyReads items jiffies sizes).ended = true ↔ items.toNat ≤ sizes.sum)) := by
  induction sizes using List.reverseRecOn with
  | nil => exact ⟨rfl, (Nat.zero_min _).symm, fun hne => absurd rfl hne⟩
  | append_singleton sizes k ih =>
      obtain ⟨hpos, hlength, -⟩ := ih
      obtain ⟨records, houtput, htrail, -, hends, hle, hfull⟩ :=
        (xBusySeqOps_inStep items jiffies).read (t := xBusyReads items jiffies sizes) trivial k
      have hread : xBusyReads items jiffies (sizes ++ [k]) =
          (xBusySeqOps items jiffies).read (xBusyReads items jiffies sizes) k :=
        List.foldl_concat ..
      rw [← hread] at houtput htrail hends hfull
      rw [hpos] at htrail
      obtain ⟨hq, hlast⟩ := items_trail hitems (Int.natCast_nonneg _) htrail
      have hpos' : (xBusyReads items jiffies (sizes ++ [k])).pos =
          ((xBusyReads items jiffies sizes).output.length + records.length : ℕ) := by
        rw [hq, Nat.cast_add]
      rw [houtput, List.length_append, List.sum_append, List.sum_singleton]
      cases hended : (xBusyReads items jiffies (sizes ++ [k])).ended with
      | false =>
          have hgoes : ¬ items ≤ (xBusyReads items jiffies (sizes ++ [k])).pos := by
            rw [← hends, hended]
            decide
          have hk := hfull hended
          exact ⟨hpos', by omega, fun _ => iff_of_false (by decide) (by omega)⟩
      | true =>
          have hend := hends.mp hended
          have hshort : records.length ≠ 0 →
              (xBusyReads items jiffies (sizes ++ [k])).pos ≤ items :=
            fun hne => hlast fun hnil => hne (List.length_eq_zero_iff.mpr hnil)
          exact ⟨hpos', by omega, fun _ => iff_of_true rfl (by omega)⟩

/-- However the reads are cut, lab11_seq counts from 0 on and frees each of its objects
once, and lab8_seqfile shows each item once and then ends. -/
theorem restarts_leave_no_trace (env : Env) (sizes : List ℕ) (items : ℤ) (jiffies : ℕ → ℕ)
    (sizes' : List ℕ)
    (hcounted : (ctReads env sizes).output.flatten.length < 9223372036854775808)
    (hitems : items ≤ INT_MAX) :
    ((∃ shown, (ctReads env sizes).output = (List.range shown).map fun n : ℕ => ctLine n) ∧
      (ctReads env sizes).state.heap.freed =
        (List.range (ctReads env sizes).state.heap.requests).filter env.grants) ∧
    ((xBusyReads items jiffies sizes').output.length = min sizes'.sum (max items 0).toNat ∧
      ((xBusyReads items jiffies sizes').ended = true →
        ((xBusyReads items jiffies sizes').output.length : ℤ) = max items 0) ∧
      (sizes' ≠ [] → (max items 0).toNat ≤ sizes'.sum →
        (xBusyReads items jiffies sizes').ended = true)) := by
  obtain ⟨-, hlength, hended⟩ := xBusyReads_eq hitems jiffies sizes'
  have hmax : (max items 0).toNat = items.toNat := by omega
  rw [hmax]
  refine ⟨⟨⟨_, ctReads_eq env sizes hcounted⟩, (ctReads_trail env sizes).2⟩, hlength,
    fun hends => ?_, fun hsome => (hended hsome).mpr⟩
  have hsome : sizes' ≠ [] := by
    rintro rfl
    cases hends
  have hall := (hended hsome).mp hends
  omega

/-- The second allocation fails, so that read delivers nothing, and the third one goes on
where the first one was stopped. -/
theorem failedStart_leaves_no_trace :
    ((∃ shown, (ctReads ⟨false, fun r => decide (r ≠ 1), id⟩ [2, 5, 1]).output =
        (List.range shown).map fun n : ℕ => ctLine n) ∧
      (ctReads ⟨false, fun r => decide (r ≠ 1), id⟩ [2, 5, 1]).state.heap.freed =
        (List.range 3).filter fun r => decide (r ≠ 1)) ∧
    ((xBusyReads 3 (fun n => 100 * n) [2, 2]).output.length = min 4 3 ∧
      ((xBusyReads 3 (fun n => 100 * n) [2, 2]).ended = true →
        ((xBusyReads 3 (fun n => 100 * n) [2, 2]).output.length : ℤ) = 3) ∧
      ([2, 2] ≠ [] → 3 ≤ 4 → (xBusyReads 3 (fun n => 100 * n) [2, 2]).ended = true)) :=
  restarts_leave_no_trace ⟨false, fun r => decide (r ≠ 1), id⟩ [2, 5, 1] 3 (fun n => 100 * n)
    [2, 2] (by decide) (by decide)

end LddSamples.Debug.SeqRestart

import LddSamples.Kernel.Process
import LddSamples.Kernel.Sprintf
import LddSamples.Library.Runs

/-!
# lab8_jiq: lines printed by a chain of deferred calls

Every call of `jiq_print` appends a line to the page of the reader and has itself called
again, until the page is nearly full; then it wakes the reader. `jiq_read_wq` and
`jiq_read_wq_delayed` are on the wait queue before they start the chain, and
`jiq_read_tasklet` starts it first.
-/

namespace LddSamples.Timers.Jiq

open Kernel CArith Outcome ByteMap Decimal

def LIMIT : ℕ := PAGE_SIZE - 128

theorem LIMIT_eq : LIMIT = 3968 := rfl

/-- What one call of `jiq_print` prints: `jiffies` is 64 bits wide, and the other numbers
are `int`s. -/
structure Sample where
  jiffies : ℕ
  preemptCount : ℤ
  pid : ℤ
  cpu : ℤ
  comm : List UInt8
  preemptCount_mem : -2147483648 ≤ preemptCount ∧ preemptCount ≤ INT_MAX
  pid_mem : -2147483648 ≤ pid ∧ pid ≤ INT_MAX
  cpu_mem : -2147483648 ≤ cpu ∧ cpu ≤ INT_MAX
  comm_length : comm.length ≤ 15

/-- `struct clientdata`; `buf` is an offset in the page of the reader. -/
structure ClientData where
  len : ℕ
  buf : ℕ
  jiffies : ℕ

/-- `"    time  delta preempt   pid cpu command\n"`. -/
def header : List UInt8 :=
  [32, 32, 32, 32, 116, 105, 109, 101, 32, 32, 100, 101, 108, 116, 97, 32, 112, 114, 101, 101, 109,
    112, 116, 32, 32, 32, 112, 105, 100, 32, 99, 112, 117, 32, 99, 111, 109, 109, 97, 110, 100, 10]

/-- `"%9li  %4li     %3i %5i %3i %s\n"`. -/
def line (sample : Sample) (jiffies : ℕ) : List UInt8 :=
  padded 9 (toInt64 sample.jiffies) ++ [32, 32] ++
    padded 4 (toInt64 (sample.jiffies - jiffies)) ++ [32, 32, 32, 32, 32] ++
    padded 3 sample.preemptCount ++ [32] ++ padded 5 sample.pid ++ [32] ++
    padded 3 sample.cpu ++ [32] ++ sample.comm ++ [10]

/-- `none` stands for the branch that wakes the reader and returns 0. -/
def jiqPrint (page : ℕ → UInt8) (data : ClientData) (sample : Sample) :
    Except Fault (Option ((ℕ → UInt8) × ClientData)) :=
  if LIMIT < data.len then .ok none
  else do
    let (page, len) ← if data.len = 0 then do
        let page ← sprintf page data.buf header
        .ok (page, header.length)
      else .ok (page, 0)
    let page ← sprintf page (data.buf + len) (line sample data.jiffies)
    let len := len + (line sample data.jiffies).length
    .ok (some (page, ⟨data.len + len, data.buf + len, sample.jiffies⟩))

/-! ## The text -/

/-- The lines of a chain that began at `jiffies`. -/
def lines : ℕ → List Sample → List UInt8
  | _, [] => []
  | jiffies, sample :: samples => line sample jiffies ++ lines sample.jiffies samples

def lastJiffies : ℕ → List Sample → ℕ
  | jiffies, [] => jiffies
  | _, sample :: samples => lastJiffies sample.jiffies samples

/-- The whole text. -/
def report (jiffies : ℕ) (samples : List Sample) : List UInt8 :=
  if samples = [] then [] else header ++ lines jiffies samples

theorem lines_nil (jiffies : ℕ) : lines jiffies [] = [] := rfl

theorem lines_cons (jiffies : ℕ) (sample : Sample) (samples : List Sample) :
    lines jiffies (sample :: samples) = line sample jiffies ++ lines sample.jiffies samples := rfl

theorem lines_append (jiffies : ℕ) (samples : List Sample) (sample : Sample) :
    lines jiffies (samples ++ [sample]) =
      lines jiffies samples ++ line sample (lastJiffies jiffies samples) := by
  induction samples generalizing jiffies with
  | nil =>
      rw [List.nil_append, lines_nil, lines_cons, lines_nil, List.append_nil, List.nil_append,
        lastJiffies]
  | cons first samples ih =>
      rw [List.cons_append, lines_cons, ih, lines_cons, lastJiffies, List.append_assoc]

theorem lastJiffies_append (jiffies : ℕ) (samples : List Sample) (sample : Sample) :
    lastJiffies jiffies (samples ++ [sample]) = sample.jiffies := by
  induction samples generalizing jiffies with
  | nil => rfl
  | cons first samples ih => exact ih first.jiffies

/-- The widths add up to 35, and 99 bytes are the most that a line can take. -/
theorem line_length (sample : Sample) (jiffies : ℕ) :
    35 ≤ (line sample jiffies).length ∧ (line sample jiffies).length ≤ 99 := by
  have hjiffies := text_long_length sample.jiffies
  have hdelta := text_long_length (sample.jiffies - jiffies)
  have hpreempt := text_int_length sample.preemptCount_mem
  have hpid := text_int_length sample.pid_mem
  have hcpu := text_int_length sample.cpu_mem
  have hcomm := sample.comm_length
  simp only [line, List.length_append, padded_length, List.length_cons, List.length_nil]
  omega

/-- The text is the report on the calls so far, and the cursor stands at its end. -/
structure Printed (jiffies : ℕ) (page : ℕ → UInt8) (data : ClientData) (samples : List Sample) :
    Prop where
  cursor : data.buf = data.len
  appended : window page 0 data.len = report jiffies samples
  jiffies : data.jiffies = lastJiffies jiffies samples
  len_le : data.len ≤ LIMIT + 99
  started : data.len = 0 ↔ samples = []
  dense : samples ≠ [] → header.length + 35 * samples.length ≤ data.len

theorem header_length : header.length = 42 := rfl

theorem printed_initial (jiffies : ℕ) (page : ℕ → UInt8) :
    Printed jiffies page ⟨0, 0, jiffies⟩ [] where
  cursor := rfl
  appended := rfl
  jiffies := rfl
  len_le := Nat.zero_le _
  started := iff_of_true rfl rfl
  dense h := absurd rfl h

variable {jiffies : ℕ} {page : ℕ → UInt8} {data : ClientData} {samples : List Sample}

theorem jiqPrint_full (sample : Sample) (h : LIMIT < data.len) :
    jiqPrint page data sample = .ok none := if_pos h

/-- The slack behind the limit holds the longest line and its terminator. -/
theorem jiqPrint_printed (h : Printed jiffies page data samples) (hlimit : data.len ≤ LIMIT)
    (sample : Sample) : ∃ page' data', jiqPrint page data sample = .ok (some (page', data')) ∧
      Printed jiffies page' data' (samples ++ [sample]) := by
  have hpage := PAGE_SIZE_eq
  have hroom := LIMIT_eq
  obtain ⟨hlow, hhigh⟩ := line_length sample data.jiffies
  generalize hline : line sample data.jiffies = bytes at hlow hhigh
  have hjiffies := h.jiffies
  by_cases hfirst : data.len = 0
  · obtain rfl := h.started.mp hfirst
    obtain ⟨page₁, hheader, hfront⟩ := sprintf_eq page data.buf header
      (by rw [h.cursor, hfirst, header_length]; omega)
    obtain ⟨page₂, hprint, htext⟩ := sprintf_eq page₁ (data.buf + header.length) bytes
      (by rw [h.cursor, hfirst, header_length]; omega)
    refine ⟨page₂, ⟨data.len + (header.length + bytes.length),
      data.buf + (header.length + bytes.length), sample.jiffies⟩, ?_, ?_⟩
    · rw [jiqPrint, if_neg (Nat.not_lt.mpr hlimit), if_pos hfirst, hheader, ok_bind, ok_bind]
      dsimp only
      rw [hline, hprint]
      rfl
    · rw [hfront, h.cursor, hfirst, window_zero, List.nil_append, Nat.zero_add] at htext
      refine ⟨by rw [h.cursor], ?_, rfl, ?_, ?_, fun _ => ?_⟩
      · rw [hfirst, Nat.zero_add, htext, report, List.nil_append, if_neg (List.cons_ne_nil _ _),
          lines_cons, lines_nil, List.append_nil, ← hline, hjiffies, lastJiffies]
      · dsimp only
        rw [hfirst, header_length]
        omega
      · dsimp only
        rw [header_length]
        simp
      · dsimp only
        rw [hfirst, header_length]
        simp only [List.nil_append, List.length_singleton]
        omega
  · have hsome : samples ≠ [] := fun hnil => hfirst (h.started.mpr hnil)
    obtain ⟨page₁, hprint, htext⟩ := sprintf_eq page (data.buf + 0) bytes
      (by rw [h.cursor]; omega)
    refine ⟨page₁, ⟨data.len + (0 + bytes.length), data.buf + (0 + bytes.length),
      sample.jiffies⟩, ?_, ?_⟩
    · rw [jiqPrint, if_neg (Nat.not_lt.mpr hlimit), if_neg hfirst, ok_bind]
      dsimp only
      rw [hline, hprint]
      rfl
    · rw [Nat.add_zero, h.cursor, h.appended] at htext
      have hdense := h.dense hsome
      refine ⟨by rw [h.cursor], ?_, (lastJiffies_append ..).symm, ?_, ?_, fun _ => ?_⟩
      · rw [Nat.zero_add, htext, report, report, if_neg hsome, if_neg (by simp), lines_append,
          List.append_assoc, ← hline, hjiffies]
      · dsimp only
        omega
      · dsimp only
        simp only [List.append_eq_nil_iff, List.cons_ne_self, and_false, iff_false]
        omega
      · dsimp only
        rw [List.length_append, List.length_singleton]
        omega

/-! ## The reader and the chain -/

inductive Routine
  | readWq
  | readWqDelayed
  | readTasklet
  deriving DecidableEq

/-- The statement that the reader comes to: `prepare_to_wait`, the scheduling of the first
call, the sleep, and `finish_wait`. `interruptible_sleep_on` prepares and sleeps. -/
inductive Pc
  | prepare
  | schedule
  | sleep
  | finish
  | done
  deriving DecidableEq

/-- The statement after `prepare` or `schedule`. -/
def Routine.next : Routine → Pc → Pc
  | .readTasklet, .schedule => .prepare
  | .readTasklet, _ => .sleep
  | _, .prepare => .schedule
  | _, _ => .sleep

def Routine.start : Routine → Pc
  | .readTasklet => .schedule
  | _ => .prepare

/-- The reader is on `jiq_wait` or not, and runnable or asleep. A call of `jiq_print` is
scheduled, or the last one has ended the chain; `woken` says whether it found the reader. -/
structure State where
  pc : Pc
  onQueue : Bool
  runnable : Bool
  scheduled : Bool
  pending : Bool
  ended : Bool
  woken : Bool
  page : ℕ → UInt8
  data : ClientData
  samples : List Sample
  ret : Option ℕ

inductive Event
  | reader
  | print (sample : Sample)

namespace State

/-- The data of the call have been set, with the time at which it began. -/
def initial (r : Routine) (page : ℕ → UInt8) (jiffies : ℕ) : State :=
  ⟨r.start, false, true, false, false, false, false, page, ⟨0, 0, jiffies⟩, [], none⟩

def readerStep (r : Routine) (s : State) : Except Stop State :=
  match s.pc with
  | .prepare => .ok { s with pc := r.next .prepare, onQueue := true, runnable := false }
  | .schedule => .ok { s with pc := r.next .schedule, scheduled := true, pending := true }
  | .sleep => if s.runnable then .ok { s with pc := .finish } else .error .disabled
  | .finish => .ok { s with pc := .done, onQueue := false, ret := some s.data.len }
  | .done => .error .disabled

/-- A call that returns 1 is scheduled again; one that returns 0 has woken the reader, if
it was on the queue. -/
def printStep (s : State) (sample : Sample) : Except Stop State :=
  if s.pending then do
    match ← crash (jiqPrint s.page s.data sample) with
    | some (page, data) =>
        .ok { s with page := page, data := data, samples := s.samples ++ [sample] }
    | none => .ok { s with
        pending := false
        ended := true
        woken := s.woken || s.onQueue
        runnable := s.runnable || s.onQueue
        onQueue := false }
  else .error .disabled

def step (r : Routine) (s : State) : Event → Except Stop State
  | .reader => s.readerStep r
  | .print sample => s.printStep sample

/-- The cursor is the start of the page and the length; no print leaves the page; every
line is where the one before it ends; the chain goes on until it ends, which is after
113 lines at most and with more than `LIMIT` bytes; and the reader has been woken exactly
when it has ended, and returns only then. -/
structure Right (jiffies : ℕ) (s : State) : Prop where
  cursor : s.data.buf = s.data.len
  inside : ∀ sample, ∃ r, jiqPrint s.page s.data sample = .ok r
  appended : window s.page 0 s.data.len = report jiffies s.samples
  goes_on : s.scheduled = true → s.pending = !s.ended
  few : s.samples.length ≤ 113
  full : s.ended = true → LIMIT < s.data.len
  wakes : s.woken = s.ended
  returns : ∀ n, s.ret = some n → s.ended = true ∧ n = s.data.len

/-- In `jiq_read_tasklet` the reader is on the queue when the last call wakes it. -/
def Careful (r : Routine) (s : State) : Event → Prop
  | .reader => True
  | .print _ => r = .readTasklet → s.pending = true → LIMIT < s.data.len → s.onQueue = true

structure Inv (r : Routine) (jiffies : ℕ) (s : State) : Prop where
  printed : Printed jiffies s.page s.data s.samples
  few : s.samples.length ≤ 113
  goes_on : s.pending = (s.scheduled && !s.ended)
  full : s.ended = true → LIMIT < s.data.len
  wakes : s.woken = s.ended
  returns : ∀ n, s.ret = some n → s.ended = true ∧ n = s.data.len
  unscheduled : s.scheduled = false → s.ended = false
  before : s.pc = .schedule ∨ (r ≠ .readTasklet ∧ s.pc = .prepare) → s.scheduled = false
  queued : r ≠ .readTasklet → s.pc = .schedule ∨ s.pending = true → s.onQueue = true
  slept : s.pc = .sleep ∨ (r ≠ .readTasklet ∧ s.pc = .schedule) → s.runnable = true →
    s.woken = true
  after : s.pc = .finish ∨ s.pc = .done → s.woken = true

theorem initial_inv (r : Routine) (page : ℕ → UInt8) (jiffies : ℕ) :
    Inv r jiffies (initial r page jiffies) where
  printed := printed_initial jiffies page
  few := Nat.zero_le _
  goes_on := rfl
  full h := by cases h
  wakes := rfl
  returns _ h := by cases h
  unscheduled _ := rfl
  before _ := rfl
  queued hr h := by
    rcases h with h | h
    · cases r <;> simp [initial, Routine.start] at h hr
    · cases h
  slept h _ := by
    cases r <;> simp [initial, Routine.start] at h
  after h := by
    cases r <;> simp [initial, Routine.start] at h

variable {r : Routine} {j : ℕ} {s s' : State} {e : Event}

theorem Inv.right (hs : Inv r j s) : Right j s where
  cursor := hs.printed.cursor
  inside sample := by
    by_cases hlimit : LIMIT < s.data.len
    · exact ⟨_, jiqPrint_full sample hlimit⟩
    · obtain ⟨page, data, hprint, -⟩ := jiqPrint_printed hs.printed (Nat.not_lt.mp hlimit) sample
      exact ⟨_, hprint⟩
  appended := hs.printed.appended
  goes_on h := by rw [hs.goes_on, h, Bool.true_and]
  few := hs.few
  full := hs.full
  wakes := hs.wakes
  returns := hs.returns

theorem Inv.not_ended (hs : Inv r j s) (hpending : s.pending = true) :
    s.scheduled = true ∧ s.ended = false := by
  have h := hs.goes_on
  rw [hpending] at h
  simpa using h.symm

/-! ## Steps of the reader -/

theorem prepare_inv (hs : Inv r j s) (hpc : s.pc = .prepare) :
    Inv r j { s with pc := r.next .prepare, onQueue := true, runnable := false } where
  printed := hs.printed
  few := hs.few
  goes_on := hs.goes_on
  full := hs.full
  wakes := hs.wakes
  returns := hs.returns
  unscheduled := hs.unscheduled
  before h := by
    by_cases hr : r = .readTasklet
    · simp [hr, Routine.next] at h
    · exact hs.before (.inr ⟨hr, hpc⟩)
  queued _ _ := rfl
  slept _ h := by cases h
  after h := by cases r <;> simp [Routine.next] at h

theorem schedule_inv (hs : Inv r j s) (hpc : s.pc = .schedule) :
    Inv r j { s with pc := r.next .schedule, scheduled := true, pending := true } where
  printed := hs.printed
  few := hs.few
  goes_on := by simp [hs.unscheduled (hs.before (.inl hpc))]
  full := hs.full
  wakes := hs.wakes
  returns := hs.returns
  unscheduled h := by cases h
  before h := by cases r <;> simp [Routine.next] at h
  queued hr _ := hs.queued hr (.inl hpc)
  slept h hrun := by
    by_cases hr : r = .readTasklet
    · simp [hr, Routine.next] at h
    · exact hs.slept (.inr ⟨hr, hpc⟩) hrun
  after h := by cases r <;> simp [Routine.next] at h

theorem sleep_inv (hs : Inv r j s) (hpc : s.pc = .sleep) (hrun : s.runnable = true) :
    Inv r j { s with pc := .finish } where
  printed := hs.printed
  few := hs.few
  goes_on := hs.goes_on
  full := hs.full
  wakes := hs.wakes
  returns := hs.returns
  unscheduled := hs.unscheduled
  before h := by simp at h
  queued hr h := hs.queued hr (.inr (by simpa using h))
  slept h := by simp at h
  after _ := hs.slept (.inl hpc) hrun

theorem finish_inv (hs : Inv r j s) (hpc : s.pc = .finish) :
    Inv r j { s with pc := .done, onQueue := false, ret := some s.data.len } where
  printed := hs.printed
  few := hs.few
  goes_on := hs.goes_on
  full := hs.full
  wakes := hs.wakes
  returns n h := ⟨hs.wakes ▸ hs.after (.inl hpc), (Option.some.inj h).symm⟩
  unscheduled := hs.unscheduled
  before h := by simp at h
  queued _ h := by
    have hended : s.ended = true := hs.wakes ▸ hs.after (.inl hpc)
    have hpending : s.pending = true := by simpa using h
    exact absurd hended (by simp [(hs.not_ended hpending).2])
  slept h := by simp at h
  after _ := hs.after (.inl hpc)

theorem readerStep_inv (hs : Inv r j s) (h : s.readerStep r = .ok s') : Inv r j s' := by
  unfold readerStep at h
  split at h
  · next hpc =>
      cases h
      exact prepare_inv hs hpc
  · next hpc =>
      cases h
      exact schedule_inv hs hpc
  · next hpc =>
      split at h
      · next hrun =>
          cases h
          exact sleep_inv hs hpc hrun
      · cases h
  · next hpc =>
      cases h
      exact finish_inv hs hpc
  · cases h

/-! ## Steps of the chain -/

theorem append_inv (hs : Inv r j s) (hpending : s.pending = true) (hlimit : s.data.len ≤ LIMIT)
    {page : ℕ → UInt8} {data : ClientData} {sample : Sample}
    (hprinted : Printed j page data (s.samples ++ [sample])) :
    Inv r j { s with page := page, data := data, samples := s.samples ++ [sample] } where
  printed := hprinted
  few := by
    have hroom := LIMIT_eq
    by_cases hnil : s.samples = []
    · simp [hnil]
    · have hdense := hs.printed.dense hnil
      rw [header_length] at hdense
      simp only [List.length_append, List.length_singleton]
      omega
  goes_on := hs.goes_on
  full h := absurd h (by simp [(hs.not_ended hpending).2])
  wakes := hs.wakes
  returns n h := absurd (hs.returns n h).1 (by simp [(hs.not_ended hpending).2])
  unscheduled := hs.unscheduled
  before := hs.before
  queued := hs.queued
  slept := hs.slept
  after := hs.after

/-- The state after the call that ends the chain. -/
def last (s : State) : State :=
  { s with
    pending := false
    ended := true
    woken := s.woken || s.onQueue
    runnable := s.runnable || s.onQueue
    onQueue := false }

theorem last_inv (hs : Inv r j s) (hpending : s.pending = true) (hlimit : LIMIT < s.data.len)
    (hqueue : s.onQueue = true) : Inv r j s.last where
  printed := hs.printed
  few := hs.few
  goes_on := by simp [last]
  full _ := hlimit
  wakes := by simp [last, hqueue]
  returns n h := absurd (hs.returns n h).1 (by simp [(hs.not_ended hpending).2])
  unscheduled h := by
    have hscheduled : s.scheduled = false := h
    simp [(hs.not_ended hpending).1] at hscheduled
  before := hs.before
  queued hr h := by
    rcases h with h | h
    · have hscheduled := hs.before (.inl h)
      simp [(hs.not_ended hpending).1] at hscheduled
    · cases h
  slept _ _ := by simp [last, hqueue]
  after _ := by simp [last, hqueue]

theorem print_full (hpending : s.pending = true) (hlimit : LIMIT < s.data.len) (sample : Sample) :
    s.printStep sample = .ok s.last := by
  rw [printStep, if_pos hpending, jiqPrint_full sample hlimit]
  rfl

theorem printStep_inv (hs : Inv r j s) {sample : Sample} (hcareful : Careful r s (.print sample))
    (h : s.printStep sample = .ok s') : Inv r j s' := by
  by_cases hpending : s.pending = true
  · by_cases hlimit : LIMIT < s.data.len
    · rw [print_full hpending hlimit, Except.ok.injEq] at h
      rw [← h]
      refine last_inv hs hpending hlimit ?_
      by_cases hr : r = .readTasklet
      · exact hcareful hr hpending hlimit
      · exact hs.queued hr (.inr hpending)
    · obtain ⟨page, data, hprint, hprinted⟩ :=
        jiqPrint_printed hs.printed (Nat.not_lt.mp hlimit) sample
      rw [printStep, if_pos hpending, hprint] at h
      cases h
      exact append_inv hs hpending (Nat.not_lt.mp hlimit) hprinted
  · rw [printStep, if_neg hpending] at h
    cases h

theorem step_inv (hs : Inv r j s) (hcareful : Careful r s e) (h : step r s e = .ok s') :
    Inv r j s' := by
  cases e with
  | reader => exact readerStep_inv hs h
  | print sample => exact printStep_inv hs hcareful h

theorem careless_sleeps (hs : Inv r j s) (hcareful : ¬ Careful r s e) :
    ∃ s', step r s e = .ok s' ∧ ¬ Right j s' := by
  cases e with
  | reader => exact absurd trivial hcareful
  | print sample =>
      simp only [Careful, Classical.not_imp, Bool.not_eq_true] at hcareful
      obtain ⟨-, hpending, hlimit, hqueue⟩ := hcareful
      refine ⟨_, print_full hpending hlimit sample, fun hright => ?_⟩
      have hwoken := hright.wakes
      simp [last, hqueue, hs.wakes, (hs.not_ended hpending).2] at hwoken

/-! ## Runs -/

/-- For every routine, every page, every starting time and all printed values: a run is
right in every state exactly when it is careful. -/
theorem chain_right_iff (r : Routine) (page : ℕ → UInt8) (jiffies : ℕ) (es : List Event) :
    Runs.Always (step r) (Right jiffies) (initial r page jiffies) es ↔
      Runs.Along (step r) (Careful r) (initial r page jiffies) es :=
  Runs.always_iff_along (fun _ hs => hs.right) (fun _ _ _ hs hC h => step_inv hs hC h)
    (fun _ _ hs hC => careless_sleeps hs hC) (initial_inv r page jiffies)

/-- Readers that queue up before they start the chain are always right. -/
theorem queued_right (hr : r ≠ .readTasklet) (page : ℕ → UInt8) (jiffies : ℕ) (es : List Event) :
    Runs.Always (step r) (Right jiffies) (initial r page jiffies) es := by
  have hcareful : ∀ s e, Careful r s e := by
    intro s e
    cases e with
    | reader => trivial
    | print sample => exact fun h => absurd h hr
  exact Runs.always_of_inv (fun _ hs => hs.right)
    (fun s e _ hs h => step_inv hs (hcareful s e) h) (initial_inv r page jiffies) es

/-- A chain that is left to itself ends, and a reader that is not on the queue by then is
not woken. -/
theorem chain_misses (hs : Inv .readTasklet j s) (hpending : s.pending = true)
    (hqueue : s.onQueue = false) (sample : Sample) {n : ℕ} (hn : 114 ≤ s.samples.length + n) :
    ¬ Runs.Always (step .readTasklet) (Right j) s (List.replicate n (.print sample)) := by
  induction n generalizing s with
  | zero =>
      have hfew := hs.few
      omega
  | succ n ih =>
      rintro ⟨-, hnext⟩
      by_cases hlimit : LIMIT < s.data.len
      · have hright := Runs.always_iff.mp (hnext _ (print_full hpending hlimit sample)) []
          List.nil_prefix _ rfl
        have hwoken := hright.wakes
        simp [last, hqueue, hs.wakes, (hs.not_ended hpending).2] at hwoken
      · obtain ⟨page, data, hprint, hprinted⟩ :=
          jiqPrint_printed hs.printed (Nat.not_lt.mp hlimit) sample
        refine ih (append_inv hs hpending (Nat.not_lt.mp hlimit) hprinted) hpending hqueue ?_
          (hnext _ (by rw [step, printStep, if_pos hpending, hprint]; rfl))
        simp only [List.length_append, List.length_singleton]
        omega

def emptySample : Sample :=
  ⟨0, 0, 0, 0, [], zero_int, zero_int, zero_int, empty_comm⟩

/-- `jiq_read_tasklet` schedules the tasklet, and the chain ends before it sleeps. -/
theorem tasklet_misses :
    ¬ Runs.Always (step .readTasklet) (Right 0) (initial .readTasklet (fun _ => 0) 0)
      (.reader :: List.replicate 114 (.print emptySample)) := by
  rintro ⟨-, hnext⟩
  have hinv := schedule_inv (initial_inv .readTasklet (fun _ => 0) 0) rfl
  exact chain_misses hinv rfl rfl emptySample (Nat.le_add_left _ _) (hnext _ rfl)

end State

end LddSamples.Timers.Jiq

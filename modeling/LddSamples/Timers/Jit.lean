import LddSamples.Kernel.Process
import LddSamples.Kernel.Sprintf
import LddSamples.Library.Runs

/-!
# lab9_jit: a reader and the callback that prints for it

`jit_timer` and `jit_tasklet` allocate the data of the callback, print the first lines of
the page and sleep until the callback has run `JIT_ASYNC_LOOPS` times. A signal ends the
sleep at once, and the callback goes on.
-/

namespace LddSamples.Timers.Jit

open Kernel CArith Outcome Decimal

def JIT_ASYNC_LOOPS : ℤ := 5

/-- What one line prints. -/
structure Sample where
  jiffies : ℕ
  inInterrupt : Bool
  pid : ℤ
  cpu : ℤ
  comm : List UInt8
  pid_mem : -2147483648 ≤ pid ∧ pid ≤ INT_MAX
  cpu_mem : -2147483648 ≤ cpu ∧ cpu ≤ INT_MAX
  comm_length : comm.length ≤ 15

/-- `"   time   delta  inirq    pid   cpu command\n"`. -/
def header : List UInt8 :=
  [32, 32, 32, 116, 105, 109, 101, 32, 32, 32, 100, 101, 108, 116, 97, 32, 32, 105, 110, 105, 114,
    113, 32, 32, 32, 32, 112, 105, 100, 32, 32, 32, 99, 112, 117, 32, 99, 111, 109, 109, 97, 110,
    100, 10]

/-- `"%9li  %3li     %i    %6i   %i   %s\n"`. -/
def line (sample : Sample) (delta : ℤ) : List UInt8 :=
  padded 9 (toInt64 sample.jiffies) ++ [32, 32] ++ padded 3 (toInt64 delta) ++
    [32, 32, 32, 32, 32] ++ text (if sample.inInterrupt then 1 else 0) ++ [32, 32, 32, 32] ++
    padded 6 sample.pid ++ [32, 32, 32] ++ text sample.cpu ++ [32, 32, 32] ++ sample.comm ++ [10]

/-- `jit_timer` with the module parameter `tdelay`, and `jit_tasklet` with its argument. -/
inductive Routine
  | jitTimer (tdelay : ℤ)
  | jitTasklet (arg : ℤ)

/-- Where a scheduled callback waits for its turn. -/
inductive Queue
  | timers (expires : ℕ)
  | tasklets
  | hiTasklets

/-- A timer is not called before its time. -/
def Queue.Due : Queue → ℕ → Prop
  | .timers expires, jiffies => 0 ≤ toInt64 (jiffies - expires)
  | _, _ => True

instance (q : Queue) (jiffies : ℕ) : Decidable (q.Due jiffies) :=
  match q with
  | .timers _ => inferInstanceAs (Decidable (_ ≤ _))
  | .tasklets | .hiTasklets => inferInstanceAs (Decidable True)

theorem Queue.exists_due (q : Queue) : ∃ jiffies, q.Due jiffies := by
  cases q with
  | timers expires => exact ⟨expires, by simp [Queue.Due, toInt64]⟩
  | _ => exact ⟨0, trivial⟩

/-- `struct jit_data`; `buf` is an offset in the page of the reader. -/
structure JitData where
  expires : ℕ
  hi : ℤ
  prevjiffies : ℕ
  buf : ℕ
  loops : ℤ

/-- The field `hi` is an `int`. -/
def Routine.hi : Routine → ℤ
  | .jitTimer _ => 0
  | .jitTasklet arg => arg

def Routine.expire : Routine → ℕ → ℕ
  | .jitTimer tdelay, jiffies => toUInt64 (jiffies + tdelay)
  | .jitTasklet _, _ => 0

/-- `add_timer`, or the choice between `tasklet_hi_schedule` and `tasklet_schedule`. -/
def Routine.schedule : Routine → ℕ → ℤ → Queue
  | .jitTimer _, expires, _ => .timers expires
  | .jitTasklet _, _, hi => if hi ≠ 0 then .hiTasklets else .tasklets

/-- Where the reader stands: before the call, at the test of its wait, asleep, at the test
for a signal, before `kfree`, and after its return. -/
inductive Pc
  | start
  | wait
  | asleep
  | signal
  | free
  | done
  deriving DecidableEq

/-- Where the callback stands: before its `sprintf`, before it counts down, before it
schedules itself, in `wake_up_interruptible` before it wakes the reader, and there before it
unlocks the queue; a tasklet is unlocked after that. -/
inductive CallbackPc
  | idle
  | print (sample : Sample)
  | count (jiffies : ℕ)
  | rearm (jiffies : ℕ)
  | wake
  | unlock

/-- `frees` counts the calls of `kfree`. -/
structure State where
  pc : Pc
  callback : CallbackPc
  pending : Option Queue
  signalled : Bool
  data : JitData
  page : ℕ → UInt8
  allocated : Bool
  frees : ℕ
  eof : Bool
  out : Option ℤ

inductive Event
  | call (granted : Bool) (sample : Sample)
  | reader
  | signal
  | fire (sample : Sample)
  | callback

namespace State

def initial (page : ℕ → UInt8) : State :=
  ⟨.start, .idle, none, false, ⟨0, 0, 0, 0, 0⟩, page, false, 0, false, none⟩

/-- The routine as far as the scheduling of the callback. -/
def call (r : Routine) (s : State) (granted : Bool) (sample : Sample) : Except Stop State :=
  match s.pc with
  | .start =>
      if granted then do
        let page ← crash (sprintf s.page 0 header)
        let page ← crash (sprintf page header.length (line sample 0))
        let expires := r.expire sample.jiffies
        .ok { s with
          pc := .wait
          pending := some (r.schedule expires r.hi)
          data := ⟨expires, toInt32 r.hi, sample.jiffies,
            header.length + (line sample 0).length, JIT_ASYNC_LOOPS⟩
          page := page
          allocated := true }
      else .ok { s with pc := .done, out := some (-ENOMEM) }
  | _ => .error .disabled

/-- The test of the wait and falling asleep are one step, since the reader is on the queue
by then. -/
def readerStep (s : State) : Except Stop State :=
  match s.pc with
  | .wait =>
      if s.data.loops = 0 ∨ s.signalled = true then .ok { s with pc := .signal }
      else .ok { s with pc := .asleep }
  | .signal =>
      if s.signalled then .ok { s with pc := .done, out := some (-ERESTARTSYS) }
      else .ok { s with pc := .free }
  | .free => .ok { s with
      pc := .done
      frees := s.frees + 1
      eof := true
      out := some s.data.buf }
  | _ => .error .disabled

def wakeReader (s : State) : State :=
  match s.pc with
  | .asleep => { s with pc := .wait }
  | _ => s

/-- Callbacks run one after another. -/
def fire (s : State) (sample : Sample) : Except Stop State :=
  match s.pending, s.callback with
  | some q, .idle =>
      if q.Due sample.jiffies then .ok { s with pending := none, callback := .print sample }
      else .error .disabled
  | _, _ => .error .disabled

/-- The next statement of `jit_timer_fn` or `jit_tasklet_fn`. It does the same when its data
have been freed, which is not to happen. -/
def callbackStep (r : Routine) (s : State) : Except Stop State :=
  match s.callback with
  | .idle => .error .disabled
  | .print sample => do
      let bytes := line sample (sample.jiffies - s.data.prevjiffies)
      let page ← crash (sprintf s.page s.data.buf bytes)
      .ok { s with
        callback := .count sample.jiffies
        data := { s.data with buf := s.data.buf + bytes.length }
        page := page }
  | .count jiffies =>
      .ok { s with
        callback := if s.data.loops - 1 ≠ 0 then .rearm jiffies else .wake
        data := { s.data with loops := s.data.loops - 1 } }
  | .rearm jiffies =>
      let expires := r.expire s.data.expires
      .ok { s with
        callback := .idle
        pending := some (r.schedule expires s.data.hi)
        data := { s.data with expires := expires, prevjiffies := jiffies } }
  | .wake => .ok { s.wakeReader with callback := .unlock }
  | .unlock => .ok { s with callback := .idle }

def step (r : Routine) (s : State) : Event → Except Stop State
  | .call granted sample => s.call r granted sample
  | .reader => s.readerStep
  | .signal => .ok { s.wakeReader with signalled := true }
  | .fire sample => s.fire sample
  | .callback => s.callbackStep r

/-- No callback runs, and none is scheduled. -/
def Quiet (s : State) : Prop := s.pending = none ∧ s.callback = .idle

/-- When the routine has returned, what it has allocated has been freed once; from the
`kfree` or the return on, all is quiet. -/
structure Right (s : State) : Prop where
  freed : s.out.isSome = true → s.frees = s.allocated.toNat
  quiet : s.out.isSome = true ∨ 0 < s.frees → s.Quiet

/-- No signal is pending when the reader tests for one, and `wake_up_interruptible` is
through when the reader frees the data. -/
def Careful (s : State) : Event → Prop
  | .reader => (s.pc = .signal → s.signalled = false) ∧ (s.pc = .free → s.callback = .idle)
  | _ => True

/-! ## Lines -/

/-- The widths add up to 96 bytes at most. -/
theorem line_length (sample : Sample) (delta : ℤ) : (line sample delta).length ≤ 96 := by
  have hjiffies := text_long_length sample.jiffies
  have hdelta := text_long_length delta
  have hinterrupt : (text (if sample.inInterrupt then 1 else 0)).length ≤ 1 := by
    rw [text, if_neg (by split <;> decide)]
    exact decimal_length_le Nat.one_pos (by split <;> decide)
  have hpid := text_int_length sample.pid_mem
  have hcpu := text_int_length sample.cpu_mem
  have hcomm := sample.comm_length
  simp only [line, List.length_append, padded_length, List.length_cons, List.length_nil]
  omega

theorem header_length : header.length = 44 := rfl

/-! ## The invariant -/

/-- The callback has lines to print yet. -/
def Busy (s : State) : Prop :=
  s.pending ≠ none ∨ match s.callback with
    | .print _ | .count _ | .rearm _ => True
    | _ => False

/-- How many lines the callback has to print yet. -/
def todo (s : State) : ℤ :=
  match s.callback with
  | .count _ => s.data.loops - 1
  | _ => s.data.loops

/-- What holds where the reader stands, and while the callback has work left. The last lines
fit into the page. -/
structure Inv (s : State) : Prop where
  before : s.pc = .start → s.Quiet ∧ s.allocated = false
  kept : s.pc ≠ .done → s.frees = 0 ∧ s.out = none
  living : s.pc ≠ .start → s.pc ≠ .done → s.allocated = true
  gone : s.pc = .done → s.Quiet ∧ s.frees = s.allocated.toNat
  waited : s.pc = .signal → s.data.loops = 0 ∨ s.signalled = true
  finished : s.pc = .free → s.data.loops = 0
  alone : s.pending ≠ none → s.callback = .idle
  counting : s.Busy → 0 < s.data.loops
  room : s.data.buf + 96 * s.todo ≤ 620

theorem initial_inv (page : ℕ → UInt8) : Inv (initial page) where
  before _ := ⟨⟨rfl, rfl⟩, rfl⟩
  kept _ := ⟨rfl, rfl⟩
  living h := absurd rfl h
  gone h := by cases h
  waited h := by cases h
  finished h := by cases h
  alone h := absurd rfl h
  counting h := by simp [Busy, initial] at h
  room := by
    show (0 : ℤ) + 96 * 0 ≤ 620
    omega

variable {r : Routine} {s s' : State} {e : Event}

theorem Inv.right (hs : Inv s) : Right s := by
  by_cases hpc : s.pc = .done
  · obtain ⟨hquiet, hfrees⟩ := hs.gone hpc
    exact ⟨fun _ => hfrees, fun _ => hquiet⟩
  · obtain ⟨hfrees, hout⟩ := hs.kept hpc
    exact ⟨fun h => by simp [hout] at h, fun h => by simp [hout, hfrees] at h⟩

/-! ## Steps -/

theorem call_denied (hpc : s.pc = .start) (sample : Sample) :
    s.call r false sample = .ok { s with pc := .done, out := some (-ENOMEM) } := by
  rw [call, hpc]
  rfl

/-- The first lines fit into the page. -/
theorem call_granted (hpc : s.pc = .start) (sample : Sample) :
    ∃ page buf, buf ≤ 140 ∧ s.call r true sample = .ok { s with
      pc := .wait
      pending := some (r.schedule (r.expire sample.jiffies) r.hi)
      data := ⟨r.expire sample.jiffies, toInt32 r.hi, sample.jiffies, buf, JIT_ASYNC_LOOPS⟩
      page := page
      allocated := true } := by
  have hpage := PAGE_SIZE_eq
  have hline := line_length sample 0
  obtain ⟨page₁, hheader⟩ := sprintf_ok s.page 0 header
    (by rw [header_length]; omega)
  obtain ⟨page₂, hfirst⟩ := sprintf_ok page₁ header.length (line sample 0)
    (by rw [header_length]; omega)
  refine ⟨page₂, header.length + (line sample 0).length, by rw [header_length]; omega, ?_⟩
  rw [call, hpc]
  dsimp only
  rw [if_pos rfl, hheader, crash, ok_bind, hfirst, crash, ok_bind]

theorem call_inv {granted : Bool} {sample : Sample} (hs : Inv s)
    (h : s.call r granted sample = .ok s') : Inv s' := by
  by_cases hpc : s.pc = .start
  · obtain ⟨⟨hpending, hcallback⟩, hallocated⟩ := hs.before hpc
    obtain ⟨hfrees, hout⟩ := hs.kept (by simp [hpc])
    cases granted with
    | false =>
        rw [call_denied hpc, Except.ok.injEq] at h
        rw [← h]
        exact {
          before := by simp
          kept := by simp
          living := by simp
          gone := fun _ => ⟨⟨hpending, hcallback⟩, by simp [hfrees, hallocated]⟩
          waited := by simp
          finished := by simp
          alone := hs.alone
          counting := hs.counting
          room := hs.room }
    | true =>
        obtain ⟨page, buf, hbuf, hgranted⟩ := call_granted (r := r) hpc sample
        rw [hgranted, Except.ok.injEq] at h
        rw [← h]
        exact {
          before := by simp
          kept := fun _ => ⟨hfrees, hout⟩
          living := fun _ _ => rfl
          gone := by simp
          waited := by simp
          finished := by simp
          alone := fun _ => hcallback
          counting := fun _ => by
            show 0 < JIT_ASYNC_LOOPS
            decide
          room := by
            simp only [todo, hcallback, JIT_ASYNC_LOOPS]
            omega }
  · unfold call at h
    split at h
    · next hstart => exact absurd hstart hpc
    · cases h

/-- The reader goes on between the call and the return. -/
theorem Inv.moves (hs : Inv s) (hstart : s.pc ≠ .start) (hdone : s.pc ≠ .done) {pc : Pc}
    (hstart' : pc ≠ .start) (hdone' : pc ≠ .done)
    (hwaited : pc = .signal → s.data.loops = 0 ∨ s.signalled = true)
    (hfinished : pc = .free → s.data.loops = 0) : Inv { s with pc := pc } where
  before h := absurd h hstart'
  kept _ := hs.kept hdone
  living _ _ := hs.living hstart hdone
  gone h := absurd h hdone'
  waited := hwaited
  finished := hfinished
  alone := hs.alone
  counting := hs.counting
  room := hs.room

theorem free_inv (hs : Inv s) (hpc : s.pc = .free) (hidle : s.callback = .idle) :
    Inv { s with pc := .done, frees := s.frees + 1, eof := true, out := some s.data.buf } := by
  have hpending : s.pending = none := by
    by_contra hpending
    exact absurd (hs.finished hpc) (hs.counting (.inl hpending)).ne'
  have hfrees := (hs.kept (by simp [hpc])).1
  have hallocated := hs.living (by simp [hpc]) (by simp [hpc])
  exact {
    before := by simp
    kept := by simp
    living := by simp
    gone := fun _ => ⟨⟨hpending, hidle⟩, by simp [hfrees, hallocated]⟩
    waited := by simp
    finished := by simp
    alone := hs.alone
    counting := hs.counting
    room := hs.room }

/-- The reader does not free the data while the callback goes on, and does not leave it. -/
theorem readerStep_inv (hs : Inv s) (hcareful : Careful s .reader) (h : s.readerStep = .ok s') :
    Inv s' := by
  obtain ⟨hsignal, hfree⟩ := hcareful
  unfold readerStep at h
  split at h
  · next hpc =>
      split at h
      · next htest =>
          cases h
          exact hs.moves (by simp [hpc]) (by simp [hpc]) nofun nofun (fun _ => htest) nofun
      · cases h
        exact hs.moves (by simp [hpc]) (by simp [hpc]) nofun nofun nofun nofun
  · next hpc =>
      have hloops := (hs.waited hpc).resolve_right (by simp [hsignal hpc])
      rw [if_neg (by simp [hsignal hpc]), Except.ok.injEq] at h
      rw [← h]
      exact hs.moves (by simp [hpc]) (by simp [hpc]) nofun nofun nofun (fun _ => hloops)
  · next hpc =>
      cases h
      exact free_inv hs hpc (hfree hpc)
  · cases h

theorem Inv.wakeReader (hs : Inv s) : Inv s.wakeReader := by
  unfold State.wakeReader
  split
  · next hpc => exact hs.moves (by simp [hpc]) (by simp [hpc]) nofun nofun nofun nofun
  · exact hs

theorem signal_inv (hs : Inv s) : Inv { s.wakeReader with signalled := true } where
  before := hs.wakeReader.before
  kept := hs.wakeReader.kept
  living := hs.wakeReader.living
  gone := hs.wakeReader.gone
  waited _ := .inr rfl
  finished := hs.wakeReader.finished
  alone := hs.wakeReader.alone
  counting := hs.wakeReader.counting
  room := hs.wakeReader.room

/-- A callback that runs or is scheduled finds its reader in between. -/
theorem Inv.between (hs : Inv s) (hrun : ¬ s.Quiet) : s.pc ≠ .start ∧ s.pc ≠ .done :=
  ⟨fun hpc => hrun (hs.before hpc).1, fun hpc => hrun (hs.gone hpc).1⟩

/-- What a step of the callback can change. -/
theorem Inv.goes_on (hs : Inv s) (hrun : ¬ s.Quiet) {callback : CallbackPc}
    {pending : Option Queue} {data : JitData} {page : ℕ → UInt8}
    (hloops : s.data.loops = 0 → data.loops = 0) (halone : pending ≠ none → callback = .idle)
    (hcounting : Busy { s with callback := callback, pending := pending } → 0 < data.loops)
    (hroom : data.buf + 96 * todo { s with callback := callback, data := data } ≤ 620) :
    Inv { s with callback := callback, pending := pending, data := data, page := page } where
  before h := absurd h (hs.between hrun).1
  kept := hs.kept
  living := hs.living
  gone h := absurd h (hs.between hrun).2
  waited h := (hs.waited h).imp_left hloops
  finished h := hloops (hs.finished h)
  alone := halone
  counting := hcounting
  room := hroom

theorem fire_inv {sample : Sample} (hs : Inv s) (h : s.fire sample = .ok s') : Inv s' := by
  unfold fire at h
  split at h
  · next q hpending hcallback =>
      split at h
      · cases h
        refine hs.goes_on (by simp [Quiet, hpending]) id (by simp) ?_ ?_
        · exact fun _ => hs.counting (.inl (by simp [hpending]))
        · have hroom := hs.room
          simpa [todo, hcallback] using hroom
      · cases h
  · cases h

theorem print_inv {sample : Sample} (hs : Inv s) (hcallback : s.callback = .print sample)
    {buf : ℕ} (hbuf : buf ≤ s.data.buf + 96) {page : ℕ → UInt8} :
    Inv { s with
      callback := .count sample.jiffies
      data := { s.data with buf := buf }
      page := page } := by
  have hroom := hs.room
  refine hs.goes_on (by simp [Quiet, hcallback]) id ?_ ?_ ?_
  · exact fun hpending => absurd (hs.alone hpending) (by simp [hcallback])
  · exact fun _ => hs.counting (.inr (by simp [hcallback]))
  · simp only [todo, hcallback] at hroom ⊢
    omega

theorem count_inv {jiffies : ℕ} (hs : Inv s) (hcallback : s.callback = .count jiffies) :
    Inv { s with
      callback := if s.data.loops - 1 ≠ 0 then .rearm jiffies else .wake
      data := { s.data with loops := s.data.loops - 1 } } := by
  have hroom := hs.room
  have hpos := hs.counting (.inr (by simp [hcallback]))
  have hpending : s.pending = none := by
    by_contra hpending
    simp [hs.alone hpending] at hcallback
  refine hs.goes_on (by simp [Quiet, hcallback]) ?_ ?_ ?_ ?_
  · exact fun hzero => absurd hzero hpos.ne'
  · exact fun h => absurd hpending h
  · intro hbusy
    dsimp only
    by_cases hlast : s.data.loops - 1 = 0
    · simp [Busy, hpending, hlast] at hbusy
    · omega
  · split
    · simpa [todo, hcallback] using hroom
    · simpa [todo, hcallback] using hroom

theorem rearm_inv {jiffies : ℕ} (hs : Inv s) (hcallback : s.callback = .rearm jiffies)
    {expires : ℕ} {q : Queue} :
    Inv { s with
      callback := .idle
      pending := some q
      data := { s.data with expires := expires, prevjiffies := jiffies } } := by
  refine hs.goes_on (by simp [Quiet, hcallback]) id (fun _ => rfl) ?_ ?_
  · exact fun _ => hs.counting (.inr (by simp [hcallback]))
  · have hroom := hs.room
    simpa [todo, hcallback] using hroom

theorem wakeReader_callback : s.wakeReader.callback = s.callback := by
  unfold wakeReader
  split <;> rfl

/-- A callback that has woken the reader has nothing to print. -/
theorem leave_inv (hs : Inv s) (hcallback : s.callback = .wake ∨ s.callback = .unlock)
    {callback : CallbackPc} (hnext : callback = .unlock ∨ callback = .idle) :
    Inv { s with callback := callback } := by
  have hpending : s.pending = none := by
    by_contra hpending
    have hidle := hs.alone hpending
    rcases hcallback with hcallback | hcallback <;> simp [hidle] at hcallback
  have hrun : ¬ s.Quiet := by
    rintro ⟨-, hidle⟩
    rcases hcallback with hcallback | hcallback <;> simp [hidle] at hcallback
  refine hs.goes_on hrun id (fun h => absurd hpending h) ?_ ?_
  · intro hbusy
    rcases hnext with rfl | rfl <;> simp [Busy, hpending] at hbusy
  · have hroom := hs.room
    rcases hcallback with hcallback | hcallback <;> rcases hnext with rfl | rfl <;>
      simpa [todo, hcallback] using hroom

theorem print_eq {sample : Sample} (hs : Inv s) (hcallback : s.callback = .print sample) :
    ∃ page buf, buf ≤ s.data.buf + 96 ∧ s.callbackStep r = .ok { s with
      callback := .count sample.jiffies
      data := { s.data with buf := buf }
      page := page } := by
  have hpage := PAGE_SIZE_eq
  have hroom := hs.room
  have hpos := hs.counting (.inr (by simp [hcallback]))
  have hline := line_length sample (sample.jiffies - s.data.prevjiffies)
  simp only [todo, hcallback] at hroom
  obtain ⟨page, hprint⟩ := sprintf_ok s.page s.data.buf
    (line sample (sample.jiffies - s.data.prevjiffies)) (by omega)
  refine ⟨page, _, Nat.add_le_add_left hline _, ?_⟩
  rw [callbackStep, hcallback]
  dsimp only
  rw [hprint, crash, ok_bind]

theorem callbackStep_inv (hs : Inv s) (h : s.callbackStep r = .ok s') : Inv s' := by
  cases hcallback : s.callback with
  | idle =>
      rw [callbackStep, hcallback] at h
      cases h
  | print sample =>
      obtain ⟨page, buf, hbuf, hprint⟩ := print_eq (r := r) hs hcallback
      rw [hprint, Except.ok.injEq] at h
      rw [← h]
      exact print_inv hs hcallback hbuf
  | count jiffies =>
      rw [callbackStep, hcallback, Except.ok.injEq] at h
      rw [← h]
      exact count_inv hs hcallback
  | rearm jiffies =>
      rw [callbackStep, hcallback, Except.ok.injEq] at h
      rw [← h]
      exact rearm_inv hs hcallback
  | wake =>
      rw [callbackStep, hcallback, Except.ok.injEq] at h
      rw [← h]
      exact leave_inv hs.wakeReader (.inl (wakeReader_callback.trans hcallback)) (.inl rfl)
  | unlock =>
      rw [callbackStep, hcallback, Except.ok.injEq] at h
      rw [← h]
      exact leave_inv hs (.inr hcallback) (.inr rfl)

theorem step_inv (hs : Inv s) (hcareful : Careful s e) (h : step r s e = .ok s') : Inv s' := by
  cases e with
  | call granted sample => exact call_inv hs h
  | reader => exact readerStep_inv hs hcareful h
  | signal =>
      cases h
      exact signal_inv hs
  | fire sample => exact fire_inv hs h
  | callback => exact callbackStep_inv hs h

/-- No line leaves the page. -/
theorem step_no_fault (hs : Inv s) (f : Fault) : step r s e ≠ .error (.fault f) := by
  intro h
  cases e with
  | call granted sample =>
      by_cases hpc : s.pc = .start
      · cases granted with
        | false =>
            rw [step, call_denied hpc] at h
            cases h
        | true =>
            obtain ⟨page, buf, -, hgranted⟩ := call_granted (r := r) hpc sample
            rw [step, hgranted] at h
            cases h
      · rw [step, call] at h
        split at h
        · next hstart => exact hpc hstart
        · cases h
  | reader =>
      rw [step, readerStep] at h
      split at h
      · split at h <;> cases h
      · split at h <;> cases h
      · cases h
      · cases h
  | signal => cases h
  | fire sample =>
      rw [step, fire] at h
      split at h
      · split at h <;> cases h
      · cases h
  | callback =>
      cases hcallback : s.callback with
      | print sample =>
          obtain ⟨page, buf, -, hprint⟩ := print_eq (r := r) hs hcallback
          rw [step, hprint] at h
          cases h
      | _ =>
          rw [step, callbackStep, hcallback] at h
          cases h

/-- Return on a signal leaves the data behind, and an early `kfree` the callback. -/
theorem careless_returns (hs : Inv s) (hcareful : ¬ Careful s e) :
    ∃ s', step r s e = .ok s' ∧ ¬ Right s' := by
  cases e with
  | reader =>
      by_cases hpc : s.pc = .signal
      · have hsignalled : s.signalled = true := by
          by_contra hnone
          exact hcareful ⟨fun _ => by simpa using hnone, by simp [hpc]⟩
        refine ⟨_, by rw [step, readerStep, hpc]; exact if_pos hsignalled, fun hright => ?_⟩
        have hfreed := hright.freed rfl
        simp [(hs.kept (by simp [hpc])).1, hs.living (by simp [hpc]) (by simp [hpc])] at hfreed
      · have hfree : s.pc = .free ∧ s.callback ≠ .idle := by
          by_contra hnone
          exact hcareful ⟨fun h => absurd h hpc, fun h => by
            by_contra hcallback
            exact hnone ⟨h, hcallback⟩⟩
        refine ⟨_, by rw [step, readerStep, hfree.1], fun hright => ?_⟩
        exact hfree.2 (hright.quiet (.inl rfl)).2
  | _ => exact absurd trivial hcareful

/-! ## Runs -/

/-- For both routines with every parameter, and every page: a run is right in every state
exactly when it is careful. -/
theorem returns_right_iff (r : Routine) (page : ℕ → UInt8) (es : List Event) :
    Runs.Always (step r) Right (initial page) es ↔ Runs.Along (step r) Careful (initial page) es :=
  Runs.always_iff_along (fun _ hs => hs.right) (fun _ _ _ hs hC h => step_inv hs hC h)
    (fun _ _ hs hC => careless_returns hs hC) (initial_inv page)

def sampleAt (jiffies : ℕ) : Sample :=
  ⟨jiffies, true, 0, 0, [], zero_int, zero_int, empty_comm⟩

/-- A signal during the sleep: `jit_timer` returns without `kfree`, and its timer goes on. -/
theorem signal_leaks :
    ¬ Runs.Always (step (.jitTimer 10)) Right (initial fun _ => 0)
      [.call true (sampleAt 0), .signal, .reader, .reader] := by
  intro halways
  obtain ⟨page, buf, -, hcall⟩ := call_granted (r := .jitTimer 10) (s := initial _) rfl (sampleAt 0)
  have hsignalled := (halways.2 _ hcall).2 _ rfl
  have hreturned := (hsignalled.2 _ rfl).2 _ rfl
  have hfreed := hreturned.freed rfl
  cases hfreed

theorem exists_printed (r : Routine) {sample : Sample} (hs : Inv s)
    (hcallback : s.callback = .print sample) :
    ∃ t, step r s .callback = .ok t ∧ Inv t ∧ t.callback = .count sample.jiffies ∧
      t.pc = s.pc ∧ t.signalled = s.signalled ∧ t.data.loops = s.data.loops := by
  obtain ⟨page, buf, -, hprint⟩ := print_eq (r := r) hs hcallback
  exact ⟨_, hprint, callbackStep_inv hs hprint, rfl, rfl, rfl, rfl⟩

/-- A callback that is called prints a line and counts down. -/
theorem exists_round (r : Routine) (hs : Inv s) {q : Queue} (hpending : s.pending = some q) :
    ∃ jiffies t, Runs.exec (step r) s [.fire (sampleAt jiffies), .callback, .callback] = .ok t ∧
      Inv t ∧ t.pc = s.pc ∧ t.signalled = s.signalled ∧ t.data.loops = s.data.loops - 1 ∧
      t.callback = if s.data.loops - 1 ≠ 0 then .rearm jiffies else .wake := by
  obtain ⟨jiffies, hdue⟩ := q.exists_due
  have hfire : s.fire (sampleAt jiffies) =
      .ok { s with pending := none, callback := .print (sampleAt jiffies) } := by
    rw [fire, hpending, hs.alone (by simp [hpending])]
    exact if_pos hdue
  obtain ⟨t, hprint, ht, hcallback, hpc, hsignalled, hloops⟩ :=
    exists_printed r (fire_inv hs hfire) rfl
  have hcount : step r t .callback = .ok { t with
      callback := if t.data.loops - 1 ≠ 0 then .rearm jiffies else .wake
      data := { t.data with loops := t.data.loops - 1 } } := by
    rw [step, callbackStep, hcallback]
    rfl
  refine ⟨jiffies, _, ?_, callbackStep_inv ht hcount, hpc, hsignalled, ?_, ?_⟩
  · rw [Runs.exec_cons, step, hfire, ok_bind, Runs.exec_cons, hprint, ok_bind, Runs.exec_cons,
      hcount, ok_bind, Runs.exec_nil]
  · dsimp only
    rw [hloops]
  · dsimp only
    rw [hloops]

theorem exists_rearmed (r : Routine) {jiffies : ℕ} (hs : Inv s)
    (hcallback : s.callback = .rearm jiffies) :
    ∃ t, step r s .callback = .ok t ∧ Inv t ∧ t.pending ≠ none ∧ t.pc = s.pc ∧
      t.signalled = s.signalled ∧ t.data.loops = s.data.loops := by
  have hrearm : s.callbackStep r = .ok { s with
      callback := .idle
      pending := some (r.schedule (r.expire s.data.expires) s.data.hi)
      data := { s.data with expires := r.expire s.data.expires, prevjiffies := jiffies } } := by
    rw [callbackStep, hcallback]
  exact ⟨_, hrearm, callbackStep_inv hs hrearm, Option.some_ne_none _, rfl, rfl, rfl⟩

/-- However slow the reader is, the callback gets to its last wakeup. -/
theorem exists_last (r : Routine) (n : ℕ) (hs : Inv s) (hpending : s.pending ≠ none)
    (hloops : s.data.loops = n + 1) :
    ∃ es t, .signal ∉ es ∧ Runs.exec (step r) s es = .ok t ∧ t.pc = s.pc ∧
      t.signalled = s.signalled ∧ t.data.loops = 0 ∧ t.callback = .wake := by
  induction n generalizing s with
  | zero =>
      obtain ⟨q, hq⟩ := Option.ne_none_iff_exists'.mp hpending
      obtain ⟨jiffies, t, hrun, -, hpc, hsignalled, hcount, hcallback⟩ := exists_round r hs hq
      have hzero : s.data.loops - 1 = 0 := by omega
      refine ⟨_, t, by simp, hrun, hpc, hsignalled, hcount.trans hzero, ?_⟩
      rw [hcallback, if_neg (not_not.mpr hzero)]
  | succ n ih =>
      obtain ⟨q, hq⟩ := Option.ne_none_iff_exists'.mp hpending
      obtain ⟨jiffies, t, hrun, ht, hpc, hsignalled, hcount, hcallback⟩ := exists_round r hs hq
      rw [if_pos (by omega)] at hcallback
      obtain ⟨u, hrearm, hu, hpending', hpc', hsignalled', hloops'⟩ :=
        exists_rearmed r ht hcallback
      obtain ⟨es, v, hnone, hrest, hv⟩ := ih hu hpending' (by omega)
      refine ⟨[.fire (sampleAt jiffies), .callback, .callback] ++ .callback :: es, v, ?_, ?_, ?_⟩
      · simp [hnone]
      · rw [Runs.exec_append, hrun, ok_bind, Runs.exec_cons, hrearm, ok_bind, hrest]
      · rwa [hpc', hpc, hsignalled', hsignalled] at hv

theorem exists_called (r : Routine) (page : ℕ → UInt8) :
    ∃ t, step r (initial page) (.call true (sampleAt 0)) = .ok t ∧ Inv t ∧ t.pc = .wait ∧
      t.signalled = false ∧ t.pending ≠ none ∧ t.data.loops = JIT_ASYNC_LOOPS := by
  obtain ⟨page₁, buf, -, hcall⟩ := call_granted (r := r) (s := initial page) rfl (sampleAt 0)
  exact ⟨_, hcall, call_inv (initial_inv page) hcall, rfl, rfl, Option.some_ne_none _, rfl⟩

/-- Without any signal: a reader that comes to its wait late frees the data before the
callback has woken it. -/
theorem free_overtakes (r : Routine) (page : ℕ → UInt8) :
    ∃ es, .signal ∉ es ∧ ¬ Runs.Always (step r) Right (initial page) es := by
  obtain ⟨u, hcall, hu, hwait, hcalm, hpending, hfive⟩ := exists_called r page
  obtain ⟨es, t, hnone, hrun, hpc, hsignalled, hloops, hcallback⟩ :=
    exists_last r 4 hu hpending hfive
  rw [hwait] at hpc
  rw [hcalm] at hsignalled
  have htest : step r t .reader = .ok { t with pc := .signal } := by
    rw [step, readerStep, hpc]
    exact if_pos (.inl hloops)
  have hgo : step r { t with pc := .signal } .reader = .ok { t with pc := .free } := by
    rw [step, readerStep]
    exact if_neg (by simp [hsignalled])
  refine ⟨.call true (sampleAt 0) :: (es ++ [.reader, .reader, .reader]), by simp [hnone],
    Runs.not_always_of_exec (by
      rw [Runs.exec_cons, hcall, ok_bind, Runs.exec_append, hrun, ok_bind, Runs.exec_cons, htest,
        ok_bind, Runs.exec_cons, hgo, ok_bind]
      rfl) fun hright => ?_⟩
  have hidle := (hright.quiet (.inl rfl)).2
  simp [hcallback] at hidle

end State

end LddSamples.Timers.Jit

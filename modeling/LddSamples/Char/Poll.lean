import LddSamples.Char.Buffer
import LddSamples.Kernel.Process
import LddSamples.Library.Runs

/-!
# lab5_char_poll: readers that wait for a writer

A reader waits on `wq` for `data_ready` and clears it; a writer copies, wakes the
queue and then sets `data_ready`. Every call is cut into the steps between which
others can run; a test that fails and going to sleep are one step.
-/

namespace LddSamples.Char.Poll

open Kernel CArith Outcome ByteMap

/-- Where a process stands. `announced` is the number of announcements there had
been when the reader passed the wait, or `none` if a signal let it through; no
step depends on it. -/
inductive Pc
  | out
  | waiting (lbuf : ℕ)
  | asleep (lbuf : ℕ) (woken : Bool)
  | passed (lbuf : ℕ) (announced : Option ℕ)
  | reading (lbuf : ℕ)
  | copied (wbytes : ℤ)
  | woke (wbytes : ℤ)

/-- The announcement on which a reader has passed the wait, until it clears
`data_ready`. -/
def Pc.ticket : Pc → Option ℕ
  | .passed _ announced => announced
  | _ => none

def Pc.wake : Pc → Pc
  | .asleep lbuf _ => .asleep lbuf true
  | pc => pc

@[simp] theorem Pc.wake_ticket (pc : Pc) : pc.wake.ticket = pc.ticket := by
  cases pc <;> rfl

def Pc.InFlight : Pc → Prop
  | .copied _ => True
  | .woke _ => True
  | _ => False

/-- The last four fields count what has happened: how often `data_ready` was set,
how many reads passed the wait, how many of them by a signal, and how many passed on
each announcement. -/
structure World (ι : Type) where
  dataReady : Bool
  membuff : ℕ → UInt8
  fPos : ι → ℤ
  signalled : ι → Bool
  pc : ι → Pc
  sets : ℕ
  passes : ℕ
  interrupted : ℕ
  passesOn : ℕ → ℕ

inductive Event (ι : Type)
  | read (p : ι) (lbuf : ℕ)
  | test (p : ι)
  | clear (p : ι)
  | copyOut (p : ι) (k : ℕ)
  | write (p : ι) (buf : List UInt8) (k : ℕ)
  | wakeUp (p : ι)
  | announce (p : ι)
  | lseek (p : ι) (offset : ℤ) (orig : ℕ)
  | signal (p : ι)

namespace World

variable {ι : Type}

def initial (content : ℕ → UInt8) : World ι :=
  ⟨false, content, fun _ => 0, fun _ => false, fun _ => .out, 0, 0, 0, fun _ => 0⟩

variable [DecidableEq ι]

def goto (w : World ι) (p : ι) (pc : Pc) : World ι := { w with pc := Function.update w.pc p pc }

def passReady (w : World ι) (p : ι) (lbuf : ℕ) : World ι :=
  { w.goto p (.passed lbuf (some w.sets)) with
    passes := w.passes + 1
    passesOn := Function.update w.passesOn w.sets (w.passesOn w.sets + 1) }

/-- The reader is past the wait because of a signal; `chardrv_read` ignores what
`wait_event_interruptible` returns. -/
def passSignal (w : World ι) (p : ι) (lbuf : ℕ) : World ι :=
  { w.goto p (.passed lbuf none) with
    passes := w.passes + 1
    interrupted := w.interrupted + 1 }

/-- One turn of `wait_event_interruptible(wq, atomic_read(&data_ready))`. -/
def settle (w : World ι) (p : ι) (lbuf : ℕ) : World ι :=
  if w.dataReady then w.passReady p lbuf
  else if w.signalled p then w.passSignal p lbuf
  else w.goto p (.asleep lbuf false)

def Tests (w : World ι) (p : ι) (lbuf : ℕ) : Prop :=
  w.pc p = .waiting lbuf ∨ w.pc p = .asleep lbuf true ∨
    (w.pc p = .asleep lbuf false ∧ w.signalled p = true)

def leave (w : World ι) (p : ι) : World ι :=
  { w.goto p .out with signalled := Function.update w.signalled p false }

def step (w : World ι) : Event ι → Except Stop (World ι)
  | .read p lbuf =>
      match w.pc p with
      | .out => .ok (w.goto p (.waiting lbuf))
      | _ => .error .disabled
  | .test p =>
      match w.pc p with
      | .waiting lbuf => .ok (w.settle p lbuf)
      | .asleep lbuf woken =>
          if woken ∨ w.signalled p then .ok (w.settle p lbuf) else .error .disabled
      | _ => .error .disabled
  | .clear p =>
      match w.pc p with
      | .passed lbuf _ => .ok { w.goto p (.reading lbuf) with dataReady := false }
      | _ => .error .disabled
  | .copyOut p k =>
      match w.pc p with
      | .reading lbuf =>
          match chardrvRead w.membuff lbuf (w.fPos p) k with
          | .ok r => .ok { w.leave p with fPos := Function.update w.fPos p r.pos }
          | .error f => .error (.fault f)
      | _ => .error .disabled
  | .write p buf k =>
      match w.pc p with
      | .out =>
          if BeyondEnd buf.length (w.fPos p) then .ok w
          else
            match chardrvWrite w.membuff buf (w.fPos p) k with
            | .ok r => .ok { w.goto p (.copied r.ret) with
                membuff := r.membuff
                fPos := Function.update w.fPos p r.pos }
            | .error f => .error (.fault f)
      | _ => .error .disabled
  | .wakeUp p =>
      match w.pc p with
      | .copied wbytes =>
          .ok { w with pc := Function.update (fun r => (w.pc r).wake) p (.woke wbytes) }
      | _ => .error .disabled
  | .announce p =>
      match w.pc p with
      | .woke _ => .ok { w.leave p with dataReady := true, sets := w.sets + 1 }
      | _ => .error .disabled
  | .lseek p offset orig =>
      match w.pc p with
      | .out => .ok { w with
          fPos := Function.update w.fPos p (chardrvLseek (w.fPos p) offset orig).2 }
      | _ => .error .disabled
  | .signal p =>
      match w.pc p with
      | .out => .ok w
      | _ => .ok { w with signalled := Function.update w.signalled p true }

variable {w w' : World ι} {e : Event ι}

@[simp] theorem goto_pc_self (w : World ι) (p : ι) (pc : Pc) : (w.goto p pc).pc p = pc :=
  Function.update_self ..

theorem goto_pc_of_ne (w : World ι) {p r : ι} (h : r ≠ p) (pc : Pc) :
    (w.goto p pc).pc r = w.pc r := Function.update_of_ne h ..

inductive Does (w : World ι) : Event ι → World ι → Prop
  | read {p lbuf} (h : w.pc p = .out) : Does w (.read p lbuf) (w.goto p (.waiting lbuf))
  | test {p lbuf} (h : w.Tests p lbuf) : Does w (.test p) (w.settle p lbuf)
  | clear {p lbuf announced} (h : w.pc p = .passed lbuf announced) :
      Does w (.clear p) { w.goto p (.reading lbuf) with dataReady := false }
  | copyOut {p lbuf k fPos} (h : w.pc p = .reading lbuf) :
      Does w (.copyOut p k) { w.leave p with fPos := fPos }
  | reject {p buf k} (h : w.pc p = .out) : Does w (.write p buf k) w
  | copy {p buf k wbytes membuff fPos} (h : w.pc p = .out) :
      Does w (.write p buf k) { w.goto p (.copied wbytes) with membuff := membuff, fPos := fPos }
  | wakeUp {p wbytes} (h : w.pc p = .copied wbytes) :
      Does w (.wakeUp p)
        { w with pc := Function.update (fun r => (w.pc r).wake) p (.woke wbytes) }
  | announce {p wbytes} (h : w.pc p = .woke wbytes) :
      Does w (.announce p) { w.leave p with dataReady := true, sets := w.sets + 1 }
  | lseek {p offset orig fPos} (h : w.pc p = .out) :
      Does w (.lseek p offset orig) { w with fPos := fPos }
  | ignore {p} (h : w.pc p = .out) : Does w (.signal p) w
  | signal {p} (h : w.pc p ≠ .out) :
      Does w (.signal p) { w with signalled := Function.update w.signalled p true }

theorem step_does (h : step w e = .ok w') : Does w e w' := by
  cases e with
  | read p lbuf =>
      simp only [step] at h
      split at h
      · next hpc =>
          cases h
          exact .read hpc
      · cases h
  | test p =>
      simp only [step] at h
      split at h
      · next lbuf hpc =>
          cases h
          exact .test (.inl hpc)
      · next lbuf woken hpc =>
          split at h
          · next hawake =>
              cases h
              apply Does.test
              cases woken with
              | true => exact .inr (.inl hpc)
              | false => exact .inr (.inr ⟨hpc, by simpa using hawake⟩)
          · cases h
      · cases h
  | clear p =>
      simp only [step] at h
      split at h
      · next lbuf announced hpc =>
          cases h
          exact .clear hpc
      · cases h
  | copyOut p k =>
      simp only [step] at h
      split at h
      · next lbuf hpc =>
          split at h
          · cases h
            exact .copyOut hpc
          · cases h
      · cases h
  | write p buf k =>
      simp only [step] at h
      split at h
      · next hpc =>
          split at h
          · cases h
            exact .reject hpc
          · split at h
            · cases h
              exact .copy hpc
            · cases h
      · cases h
  | wakeUp p =>
      simp only [step] at h
      split at h
      · next wbytes hpc =>
          cases h
          exact .wakeUp hpc
      · cases h
  | announce p =>
      simp only [step] at h
      split at h
      · next wbytes hpc =>
          cases h
          exact .announce hpc
      · cases h
  | lseek p offset orig =>
      simp only [step] at h
      split at h
      · next hpc =>
          cases h
          exact .lseek hpc
      · cases h
  | signal p =>
      simp only [step] at h
      split at h
      · next hpc =>
          cases h
          exact .ignore hpc
      · next hpc =>
          cases h
          exact .signal hpc

theorem step_test {p : ι} {lbuf : ℕ} (h : w.Tests p lbuf) :
    step w (.test p) = .ok (w.settle p lbuf) := by
  rcases h with h | h | ⟨h, hsignal⟩
  · simp only [step, h]
  · simp [step, h]
  · simp [step, h, hsignal]

/-! ## Lost wakeups -/

/-- The reader sleeps and nothing is about to wake it. -/
def Stuck (w : World ι) (r : ι) : Prop :=
  ∃ lbuf, w.pc r = .asleep lbuf false ∧ w.signalled r = false

/-- Data is announced, no writer is between its copy and its return, and yet a
reader sleeps on. -/
def LostWakeup (w : World ι) : Prop :=
  w.dataReady = true ∧ (∀ p, ¬ (w.pc p).InFlight) ∧ ∃ r, Stuck w r

/-- The announcement of the last writer in flight finds no reader asleep that its
`wake_up_interruptible` has missed. -/
def AnnouncesInTime (w : World ι) (e : Event ι) : Prop :=
  ∀ p wbytes, e = .announce p → w.pc p = .woke wbytes →
    (∃ other, other ≠ p ∧ (w.pc other).InFlight) ∨ ∀ r, ¬ Stuck w r

omit [DecidableEq ι] in
/-- A step of one process that leaves `data_ready` alone, and after which that
process neither sleeps unnoticed nor has left the writers, loses no wakeup. -/
theorem LostWakeup.of_move (h : LostWakeup w') {p : ι} (hready : w'.dataReady = w.dataReady)
    (hflight : (w.pc p).InFlight → (w'.pc p).InFlight) (hasleep : ¬ Stuck w' p)
    (hpc : ∀ r, r ≠ p → w'.pc r = w.pc r) (hsignal : ∀ r, r ≠ p → w'.signalled r = w.signalled r) :
    LostWakeup w := by
  obtain ⟨hdata, hwriters, r, hstuck⟩ := h
  have hne : r ≠ p := by
    rintro rfl
    exact hasleep hstuck
  refine ⟨hready ▸ hdata, fun q hq => ?_, r, ?_⟩
  · by_cases hqp : q = p
    · subst hqp
      exact hwriters q (hflight hq)
    · exact hwriters q (hpc q hqp ▸ hq)
  · obtain ⟨lbuf, hsleep, hquiet⟩ := hstuck
    exact ⟨lbuf, hpc r hne ▸ hsleep, hsignal r hne ▸ hquiet⟩

omit [DecidableEq ι] in
theorem not_stuck {p : ι} (h : ∀ lbuf, w.pc p ≠ .asleep lbuf false) : ¬ Stuck w p := by
  rintro ⟨lbuf, hsleep, -⟩
  exact h lbuf hsleep

theorem step_keeps_wakeups (hw : ¬ LostWakeup w) (hC : AnnouncesInTime w e)
    (h : step w e = .ok w') : ¬ LostWakeup w' := by
  cases step_does h with
  | @read p lbuf hpc =>
      intro hlost
      apply hw
      refine LostWakeup.of_move (w := w) hlost (p := p) rfl ?_ ?_ ?_ ?_
      · simp [hpc, Pc.InFlight]
      · apply not_stuck
        simp
      · intro r hr
        exact goto_pc_of_ne w hr _
      · intro r hr
        rfl
  | @test p lbuf htests =>
      unfold settle
      split
      · have hpc : ¬ (w.pc p).InFlight := by
          rcases htests with hpc | hpc | ⟨hpc, -⟩ <;> simp [hpc, Pc.InFlight]
        intro hlost
        apply hw
        refine LostWakeup.of_move (w := w) hlost (p := p) rfl ?_ ?_ ?_ ?_
        · intro hflight
          exact absurd hflight hpc
        · apply not_stuck
          simp [passReady]
        · intro r hr
          exact goto_pc_of_ne w hr _
        · intro r hr
          rfl
      · next hdata =>
          split
          · rintro ⟨hready, -⟩
            exact hdata hready
          · rintro ⟨hready, -⟩
            exact hdata hready
  | clear hpc =>
      rintro ⟨hready, -⟩
      cases hready
  | @copyOut p lbuf k fPos hpc =>
      intro hlost
      apply hw
      refine LostWakeup.of_move (w := w) hlost (p := p) rfl ?_ ?_ ?_ ?_
      · simp [hpc, Pc.InFlight]
      · apply not_stuck
        simp [leave]
      · intro r hr
        exact goto_pc_of_ne w hr _
      · intro r hr
        exact Function.update_of_ne hr ..
  | reject hpc => exact hw
  | @copy p buf k wbytes membuff fPos hpc =>
      rintro ⟨-, hwriters, -⟩
      apply hwriters p
      simp [Pc.InFlight]
  | @wakeUp p wbytes hpc =>
      rintro ⟨-, hwriters, -⟩
      apply hwriters p
      simp [Pc.InFlight]
  | @announce p wbytes hpc =>
      rintro ⟨-, hwriters, r, lbuf, hsleep, hquiet⟩
      rcases hC p wbytes rfl hpc with ⟨other, hne, hflight⟩ | hnone
      · apply hwriters other
        simpa [leave, goto, hne] using hflight
      · have hr : r ≠ p := by
          rintro rfl
          simp [leave] at hsleep
        apply hnone r
        exact ⟨lbuf, by simpa [leave, goto, hr] using hsleep, by simpa [leave, hr] using hquiet⟩
  | lseek hpc => exact hw
  | ignore hpc => exact hw
  | @signal p hpc =>
      intro hlost
      apply hw
      refine LostWakeup.of_move (w := w) hlost (p := p) rfl ?_ ?_ ?_ ?_
      · exact id
      · rintro ⟨lbuf, -, hquiet⟩
        simp at hquiet
      · intro r hr
        rfl
      · intro r hr
        exact Function.update_of_ne hr ..

theorem late_announce_loses {p : ι} (hC : ¬ AnnouncesInTime w (.announce p)) :
    ∃ w', step w (.announce p) = .ok w' ∧ LostWakeup w' := by
  simp only [AnnouncesInTime, not_forall, not_or] at hC
  obtain ⟨p', wbytes, hp, hpc, hwriters, r, hstuck⟩ := hC
  cases hp
  rw [not_not] at hstuck
  obtain ⟨lbuf, hsleep, hquiet⟩ := hstuck
  have hr : r ≠ p := by
    rintro rfl
    simp [hpc] at hsleep
  refine ⟨{ w.leave p with dataReady := true, sets := w.sets + 1 }, by simp [step, hpc], rfl, ?_,
    r, lbuf, ?_, ?_⟩
  · intro q hflight
    by_cases hq : q = p
    · subst hq
      simp [leave, Pc.InFlight] at hflight
    · exact hwriters ⟨q, hq, by simpa [leave, goto, hq] using hflight⟩
  · simpa [leave, goto, hr] using hsleep
  · simpa [leave, hr] using hquiet

/-- In every interleaving, no state reached has lost a wakeup exactly when every
announcement that is made with no other writer in flight is made while no reader
sleeps unnoticed. -/
theorem no_lost_wakeup_iff (content : ℕ → UInt8) (es : List (Event ι)) :
    Runs.Always step (fun w => ¬ LostWakeup w) (initial content) es ↔
      Runs.Along step AnnouncesInTime (initial content) es := by
  apply Runs.always_iff_along (I := fun w => ¬ LostWakeup w)
  · intro w hw
    exact hw
  · intro w e w' hw hC h
    exact step_keeps_wakeups hw hC h
  · intro w e hw hC
    cases e with
    | announce p =>
        obtain ⟨w', hstep, hlost⟩ := late_announce_loses hC
        exact ⟨w', hstep, not_not.mpr hlost⟩
    | _ =>
        exfalso
        apply hC
        intro p wbytes he
        cases he
  · rintro ⟨hready, -⟩
    cases hready

/-- A reader that is woken before the announcement tests `data_ready` again, finds
it clear, and sleeps while data is announced. -/
theorem woken_too_early :
    ∃ es : List (Event ℕ),
      (∃ w, Runs.exec step (initial fun _ => 0) es = .ok w ∧ LostWakeup w) ∧
        ¬ Runs.Always step (fun w => ¬ LostWakeup w) (initial fun _ => 0) es := by
  have hlost : ∃ w, Runs.exec step (initial fun _ => 0)
      [.read 1 1, .test 1, .write 2 [7] 1, .wakeUp 2, .test 1, .announce 2] = .ok w ∧
        LostWakeup w := by
    refine ⟨_, rfl, rfl, ?_, 1, 1, rfl, rfl⟩
    intro p
    by_cases h₁ : p = 1
    · subst h₁
      exact id
    · by_cases h₂ : p = 2
      · subst h₂
        exact id
      · simp [leave, goto, settle, initial, Pc.wake, Pc.InFlight, h₁, h₂]
  refine ⟨_, hlost, fun halways => ?_⟩
  obtain ⟨w, hrun, hw⟩ := hlost
  exact Runs.not_always_of_exec hrun (not_not.mpr hw) halways

/-! ## Announcements and the reads they let through -/

/-- Each announcement has let at most one read past the wait, and no read is past it
because of a signal. -/
def OneEach (w : World ι) : Prop :=
  w.interrupted = 0 ∧ (∀ k, w.passesOn k ≤ 1) ∧ w.passes ≤ w.sets

/-- A test that finds `data_ready` set finds no reader that has passed on the last
announcement and has still to clear it; one that finds it clear finds no signal. -/
def PassesAlone (w : World ι) (e : Event ι) : Prop :=
  ∀ p lbuf, e = .test p → w.Tests p lbuf →
    (w.dataReady = true → ∀ r, (w.pc r).ticket ≠ some w.sets) ∧
      (w.dataReady = false → w.signalled p = false)

structure Accounted (w : World ι) : Prop where
  calm : w.interrupted = 0
  once : ∀ k, w.passesOn k ≤ 1
  future : ∀ k, w.sets < k → w.passesOn k = 0
  announced : w.dataReady = true → 0 < w.sets
  held : w.dataReady = true → 0 < w.passesOn w.sets → ∃ r, (w.pc r).ticket = some w.sets
  spent : ∀ r k, (w.pc r).ticket = some k → k ≤ w.sets ∧ 0 < w.passesOn k
  bound : w.passes ≤ w.sets
  spare : 0 < w.sets → w.passesOn w.sets = 0 → w.passes < w.sets

omit [DecidableEq ι] in
theorem Accounted.oneEach (h : Accounted w) : OneEach w := ⟨h.calm, h.once, h.bound⟩

omit [DecidableEq ι] in
theorem accounted_initial (content : ℕ → UInt8) : Accounted (initial content : World ι) where
  calm := rfl
  once _ := Nat.zero_le _
  future _ _ := rfl
  announced h := by cases h
  held h := by cases h
  spent _ _ h := by cases h
  bound := le_refl _
  spare h := absurd h (lt_irrefl 0)

omit [DecidableEq ι] in
theorem Accounted.of_frame (h : Accounted w) {membuff : ℕ → UInt8} {fPos : ι → ℤ}
    {signalled : ι → Bool} {pc : ι → Pc} (hticket : ∀ r, (pc r).ticket = (w.pc r).ticket) :
    Accounted { w with membuff := membuff, fPos := fPos, signalled := signalled, pc := pc } where
  calm := h.calm
  once := h.once
  future := h.future
  announced := h.announced
  held hready hpos := by
    obtain ⟨r, hr⟩ := h.held hready hpos
    exact ⟨r, (hticket r).trans hr⟩
  spent r k hr := h.spent r k ((hticket r).symm.trans hr)
  bound := h.bound
  spare := h.spare

theorem goto_ticket {p : ι} {pc : Pc} (hold : (w.pc p).ticket = none) (hnew : pc.ticket = none)
    (r : ι) : ((w.goto p pc).pc r).ticket = (w.pc r).ticket := by
  by_cases hr : r = p
  · subst hr
    rw [goto_pc_self, hold, hnew]
  · rw [goto_pc_of_ne w hr]

omit [DecidableEq ι] in
theorem Tests.ticket {p : ι} {lbuf : ℕ} (h : w.Tests p lbuf) : (w.pc p).ticket = none := by
  rcases h with h | h | ⟨h, -⟩ <;> rw [h] <;> rfl

theorem Accounted.passReady (h : Accounted w) {p : ι} {lbuf : ℕ} (hready : w.dataReady = true)
    (hfree : ∀ r, (w.pc r).ticket ≠ some w.sets) : Accounted (w.passReady p lbuf) := by
  have hnone : w.passesOn w.sets = 0 := by
    by_contra hpos
    obtain ⟨r, hr⟩ := h.held hready (Nat.pos_of_ne_zero hpos)
    exact hfree r hr
  have hother : ∀ k, k ≠ w.sets → (w.passReady p lbuf).passesOn k = w.passesOn k :=
    fun k hk => Function.update_of_ne hk ..
  have hself : (w.passReady p lbuf).passesOn w.sets = 1 := by
    simp [World.passReady, hnone]
  constructor
  case calm => exact h.calm
  case once =>
    intro k
    by_cases hk : k = w.sets
    · rw [hk, hself]
    · rw [hother k hk]
      exact h.once k
  case future =>
    intro k hk
    rw [hother k (ne_of_gt hk)]
    exact h.future k hk
  case announced => exact h.announced
  case held =>
    intro _ _
    exact ⟨p, congrArg Pc.ticket (goto_pc_self w p _)⟩
  case spent =>
    intro r k hr
    by_cases hk : k = w.sets
    · subst hk
      exact ⟨le_refl _, by rw [hself]; exact Nat.one_pos⟩
    · have hp : r ≠ p := by
        rintro rfl
        simp only [World.passReady, goto_pc_self, Pc.ticket, Option.some.injEq] at hr
        exact hk hr.symm
      rw [hother k hk]
      refine h.spent r k ?_
      rwa [World.passReady, goto_pc_of_ne w hp] at hr
  case bound => exact h.spare (h.announced hready) hnone
  case spare =>
    intro _ hzero
    exact absurd (hself.symm.trans hzero) Nat.one_ne_zero

theorem Accounted.announce (h : Accounted w) {p : ι} (hpc : (w.pc p).ticket = none) :
    Accounted { w.leave p with dataReady := true, sets := w.sets + 1 } := by
  have hticket : ∀ r, ((w.leave p).pc r).ticket = (w.pc r).ticket := goto_ticket hpc rfl
  have hfresh : w.passesOn (w.sets + 1) = 0 := h.future _ (Nat.lt_succ_self _)
  constructor
  case calm => exact h.calm
  case once => exact h.once
  case future =>
    intro k hk
    exact h.future k (Nat.lt_of_succ_lt hk)
  case announced =>
    intro _
    exact Nat.succ_pos _
  case held =>
    intro _ hpos
    exact absurd hpos (by simp [leave, goto, hfresh])
  case spent =>
    intro r k hr
    obtain ⟨hle, hpos⟩ := h.spent r k ((hticket r).symm.trans hr)
    exact ⟨Nat.le_succ_of_le hle, hpos⟩
  case bound => exact Nat.le_succ_of_le h.bound
  case spare =>
    intro _ _
    exact Nat.lt_succ_of_le h.bound

theorem Accounted.clear (h : Accounted w) {p : ι} {lbuf : ℕ} :
    Accounted { w.goto p (.reading lbuf) with dataReady := false } where
  calm := h.calm
  once := h.once
  future := h.future
  announced := by simp
  held := by simp
  spent r k hr := by
    by_cases hp : r = p
    · subst hp
      simp [Pc.ticket] at hr
    · exact h.spent r k (by rwa [goto_pc_of_ne w hp] at hr)
  bound := h.bound
  spare := h.spare

theorem step_keeps_account (hw : Accounted w) (hC : PassesAlone w e) (h : step w e = .ok w') :
    Accounted w' := by
  cases step_does h with
  | read hpc =>
      apply hw.of_frame
      exact goto_ticket (by rw [hpc]; rfl) rfl
  | @test p lbuf htests =>
      obtain ⟨hset, hclear⟩ := hC p lbuf rfl htests
      unfold settle
      cases hready : w.dataReady with
      | true => exact hw.passReady hready (hset hready)
      | false =>
          rw [hclear hready]
          apply hw.of_frame
          exact goto_ticket htests.ticket rfl
  | clear hpc => exact hw.clear
  | copyOut hpc =>
      apply hw.of_frame
      exact goto_ticket (by rw [hpc]; rfl) rfl
  | reject hpc => exact hw
  | copy hpc =>
      apply hw.of_frame
      exact goto_ticket (by rw [hpc]; rfl) rfl
  | @wakeUp p wbytes hpc =>
      apply hw.of_frame
      intro r
      by_cases hr : r = p
      · subst hr
        rw [Function.update_self, hpc]
        rfl
      · rw [Function.update_of_ne hr, Pc.wake_ticket]
  | announce hpc => exact hw.announce (by rw [hpc]; rfl)
  | lseek hpc => exact hw.of_frame fun _ => rfl
  | ignore hpc => exact hw
  | signal hpc => exact hw.of_frame fun _ => rfl

theorem crowded_test_passes (hw : Accounted w) {p : ι} (hC : ¬ PassesAlone w (.test p)) :
    ∃ w', step w (.test p) = .ok w' ∧ ¬ OneEach w' := by
  simp only [PassesAlone, not_forall] at hC
  obtain ⟨p', lbuf, hp, htests, hC⟩ := hC
  cases hp
  refine ⟨w.settle p lbuf, step_test htests, ?_⟩
  unfold settle
  cases hready : w.dataReady with
  | true =>
      simp only [hready, forall_const, Bool.true_eq_false, false_implies, and_true,
        not_forall, not_not] at hC
      obtain ⟨r, hr⟩ := hC
      have hpos := (hw.spent r w.sets hr).2
      rintro ⟨-, honce, -⟩
      have htwice := honce w.sets
      simp only [if_true, passReady, Function.update_self] at htwice
      omega
  | false =>
      have hsignal : w.signalled p = true := by simpa [hready] using hC
      rintro ⟨hcalm, -⟩
      simp [hsignal, passSignal] at hcalm

/-- In every interleaving, each announcement lets at most one read through and no
signal does, exactly when no reader tests `data_ready` between another's pass on the
last announcement and its clear, and none with a signal pending finds it clear. -/
theorem oneEach_iff (content : ℕ → UInt8) (es : List (Event ι)) :
    Runs.Always step OneEach (initial content) es ↔
      Runs.Along step PassesAlone (initial content) es := by
  apply Runs.always_iff_along (I := Accounted)
  · intro w hw
    exact hw.oneEach
  · intro w e w' hw hC h
    exact step_keeps_account hw hC h
  · intro w e hw hC
    cases e with
    | test p => exact crowded_test_passes hw hC
    | _ =>
        exfalso
        apply hC
        intro p lbuf he
        cases he
  · exact accounted_initial content

/-- Two readers pass on one announcement before either clears it; and a reader that
is sent a signal passes with nothing announced. -/
theorem second_reader_passes :
    (∃ w : World ℕ, Runs.exec step (initial fun _ => 0)
        [.write 2 [7] 1, .wakeUp 2, .announce 2, .read 1 1, .read 3 1, .test 1, .test 3] = .ok w ∧
      w.sets = 1 ∧ w.passes = 2 ∧ ¬ OneEach w) ∧
    ∃ w : World ℕ,
      Runs.exec step (initial fun _ => 0) [.read 1 1, .test 1, .signal 1, .test 1] = .ok w ∧
      w.sets = 0 ∧ w.passes = 1 ∧ ¬ OneEach w := by
  constructor
  · refine ⟨_, rfl, rfl, rfl, ?_⟩
    rintro ⟨-, -, hpasses⟩
    exact absurd hpasses (by decide)
  · refine ⟨_, rfl, rfl, rfl, ?_⟩
    rintro ⟨-, -, hpasses⟩
    exact absurd hpasses (by decide)

end World

end LddSamples.Char.Poll

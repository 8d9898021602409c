import LddSamples.Char.Poll

/-!
# lab6_char_fasync: a signal after the announcement

The driver of lab5_char_poll, with a queue of files whose owners get a `SIGIO` when data have
been announced. A reader that the early wakeup has missed wakes up by that signal.
-/

namespace LddSamples.Char.Fasync

open Kernel (Stop)

/-- `asyncQueue` are the files on `async_queue`, and `owner` is what `F_SETOWN` has set; each
process has a file of its own. The writers in `sending` have yet to call `kill_fasync`. -/
structure World (ι : Type) where
  poll : Poll.World ι
  asyncQueue : List ι
  owner : ι → Option ι
  sending : ι → Bool

inductive Event (ι : Type)
  | driver (e : Poll.Event ι)
  | setOwner (f : ι) (p : Option ι)
  | fasync (f : ι) (mode : Bool)
  | killFasync (p : ι)

variable {ι : Type}

/-- The process that takes a step; a signal comes from outside. -/
def actor : Poll.Event ι → Option ι
  | .read p _ => some p
  | .test p => some p
  | .clear p => some p
  | .copyOut p _ => some p
  | .write p _ _ => some p
  | .wakeUp p => some p
  | .announce p => some p
  | .lseek p _ _ => some p
  | .signal _ => none

variable [DecidableEq ι]

/-- `fasync_helper` has a file on the queue once; `chardrv_release` takes it off. -/
def chardrvFasync (f : ι) (mode : Bool) (queue : List ι) : List ι :=
  if mode then if f ∈ queue then queue else f :: queue
  else queue.erase f

/-- The loop of `kill_fasync` over the queue. It is one step of the world: no `F_SETOWN` and no
`FASYNC` request comes between two files. -/
def killFasync (owner : ι → Option ι) : List ι → Poll.World ι → Except Stop (Poll.World ι)
  | [], poll => .ok poll
  | f :: queue, poll =>
      match owner f with
      | none => killFasync owner queue poll
      | some p => do killFasync owner queue (← poll.step (.signal p))

def sendingAfter (sending : ι → Bool) : Poll.Event ι → ι → Bool
  | .announce p => Function.update sending p true
  | _ => sending

namespace World

omit [DecidableEq ι] in
def initial (content : ℕ → UInt8) : World ι :=
  ⟨Poll.World.initial content, [], fun _ => none, fun _ => false⟩

def step (w : World ι) : Event ι → Except Stop (World ι)
  | .driver e =>
      -- a writer that has announced its data goes on with `kill_fasync`
      if (actor e).any w.sending then .error .disabled
      else do
        let poll ← w.poll.step e
        .ok { w with poll := poll, sending := sendingAfter w.sending e }
  | .setOwner f p => .ok { w with owner := Function.update w.owner f p }
  | .fasync f mode => .ok { w with asyncQueue := chardrvFasync f mode w.asyncQueue }
  | .killFasync p =>
      if w.sending p then do
        let poll ← killFasync w.owner w.asyncQueue w.poll
        .ok { w with poll := poll, sending := Function.update w.sending p false }
      else .error .disabled

end World

/-! ## The driver without the queue -/

def signals (owner : ι → Option ι) (queue : List ι) : List (Poll.Event ι) :=
  queue.filterMap fun f => (owner f).map .signal

/-- What a step is for lab5_char_poll. -/
def World.ops (w : World ι) : Event ι → List (Poll.Event ι)
  | .driver e => [e]
  | .killFasync _ => signals w.owner w.asyncQueue
  | _ => []

theorem killFasync_eq (owner : ι → Option ι) (queue : List ι) (poll : Poll.World ι) :
    killFasync owner queue poll = Runs.exec Poll.World.step poll (signals owner queue) := by
  induction queue generalizing poll with
  | nil => rfl
  | cons f queue ih =>
      cases howner : owner f with
      | none => simp only [killFasync, signals, howner, List.filterMap_cons, Option.map_none, ih]
      | some p =>
          simp only [killFasync, signals, howner, List.filterMap_cons, Option.map_some, ih,
            Runs.exec_cons]

theorem World.step_ops {w w' : World ι} {e : Event ι} (h : w.step e = .ok w') :
    Runs.exec Poll.World.step w.poll (w.ops e) = .ok w'.poll := by
  cases e with
  | driver e =>
      simp only [step] at h
      split at h
      · cases h
      · simp only [Outcome.bind_eq_ok, Except.ok.injEq] at h
        obtain ⟨poll, hstep, rfl⟩ := h
        simp only [ops, Runs.exec_cons, hstep, Outcome.ok_bind, Runs.exec_nil]
  | setOwner f p =>
      cases h
      rfl
  | fasync f mode =>
      cases h
      rfl
  | killFasync p =>
      simp only [step] at h
      split at h
      · simp only [Outcome.bind_eq_ok, Except.ok.injEq] at h
        obtain ⟨poll, hkill, rfl⟩ := h
        rw [ops, ← killFasync_eq, hkill]
      · cases h

/-! ## Who is left asleep -/

/-- Data are announced, no writer is between its copy and its announcement, and yet `r` sleeps
on with nothing to wake it. -/
structure LeftAsleep (poll : Poll.World ι) (r : ι) : Prop where
  ready : poll.dataReady = true
  idle : ∀ p, ¬ (poll.pc p).InFlight
  stuck : poll.Stuck r

variable {poll poll' : Poll.World ι} {e : Poll.Event ι} {r : ι}

omit [DecidableEq ι] in
/-- A step of `p` leaves no other process asleep. -/
theorem LeftAsleep.of_move (h : LeftAsleep poll' r) {p : ι}
    (hready : poll'.dataReady = poll.dataReady)
    (hflight : (poll.pc p).InFlight → (poll'.pc p).InFlight) (hasleep : ¬ poll'.Stuck p)
    (hpc : ∀ q, q ≠ p → poll'.pc q = poll.pc q)
    (hsignal : ∀ q, q ≠ p → poll'.signalled q = poll.signalled q) : LeftAsleep poll r := by
  have hne : r ≠ p := by
    rintro rfl
    exact hasleep h.stuck
  obtain ⟨lbuf, hsleep, hquiet⟩ := h.stuck
  refine ⟨hready ▸ h.ready, fun q hq => ?_, lbuf, hpc r hne ▸ hsleep, hsignal r hne ▸ hquiet⟩
  by_cases hqp : q = p
  · subst hqp
    exact h.idle q (hflight hq)
  · exact h.idle q (hpc q hqp ▸ hq)

/-- Only an announcement leaves a process asleep. -/
theorem LeftAsleep.of_step (h : LeftAsleep poll' r) (hstep : poll.step e = .ok poll')
    (hquiet : ∀ p, e ≠ .announce p) : LeftAsleep poll r := by
  cases Poll.World.step_does hstep with
  | @read p lbuf hpc =>
      refine h.of_move (p := p) rfl ?_ ?_ (fun q hq => Poll.World.goto_pc_of_ne poll hq _)
        fun q _ => rfl
      · simp [hpc, Poll.Pc.InFlight]
      · apply Poll.World.not_stuck
        simp
  | @test p lbuf htests =>
      unfold Poll.World.settle at h
      split at h
      · have hpc : ¬ (poll.pc p).InFlight := by
          rcases htests with hpc | hpc | ⟨hpc, -⟩ <;> simp [hpc, Poll.Pc.InFlight]
        refine h.of_move (p := p) rfl (fun hflight => absurd hflight hpc) ?_
          (fun q hq => Poll.World.goto_pc_of_ne poll hq _) fun q _ => rfl
        apply Poll.World.not_stuck
        simp [Poll.World.passReady]
      · next hdata =>
          split at h
          · exact absurd h.ready hdata
          · exact absurd h.ready hdata
  | clear hpc => cases h.ready
  | @copyOut p lbuf k fPos hpc =>
      refine h.of_move (p := p) rfl ?_ ?_ (fun q hq => Poll.World.goto_pc_of_ne poll hq _)
        fun q hq => Function.update_of_ne hq ..
      · simp [hpc, Poll.Pc.InFlight]
      · apply Poll.World.not_stuck
        simp [Poll.World.leave]
  | reject hpc => exact h
  | @copy p buf k wbytes membuff fPos hpc =>
      refine absurd ?_ (h.idle p)
      simp [Poll.Pc.InFlight]
  | @wakeUp p wbytes hpc =>
      refine absurd ?_ (h.idle p)
      simp [Poll.Pc.InFlight]
  | @announce p wbytes hpc => exact absurd rfl (hquiet p)
  | lseek hpc => exact ⟨h.ready, h.idle, h.stuck⟩
  | ignore hpc => exact h
  | @signal p hpc =>
      refine h.of_move (p := p) rfl id ?_ (fun q _ => rfl) fun q hq => Function.update_of_ne hq ..
      rintro ⟨lbuf, -, hunsignalled⟩
      simp at hunsignalled

/-- What `kill_fasync` does to the processes. -/
structure Signals (poll poll' : Poll.World ι) (rs : List ι) : Prop where
  pc : poll'.pc = poll.pc
  stays : ∀ r, poll.signalled r = true → poll'.signalled r = true
  reaches : ∀ r ∈ rs, poll.pc r ≠ .out → poll'.signalled r = true

omit [DecidableEq ι] in
theorem Signals.not_stuck {rs : List ι} (h : Signals poll poll' rs) (hr : r ∈ rs) :
    ¬ poll'.Stuck r := by
  rintro ⟨lbuf, hsleep, hquiet⟩
  have hin : poll.pc r ≠ .out := by
    rw [← h.pc, hsleep]
    simp
  have hreached := h.reaches r hr hin
  rw [hquiet] at hreached
  cases hreached

theorem step_signals {p : ι} (h : poll.step (.signal p) = .ok poll') : Signals poll poll' [p] := by
  cases Poll.World.step_does h with
  | ignore hout =>
      refine ⟨rfl, fun _ => id, fun r hr hin => ?_⟩
      rw [List.mem_singleton.mp hr] at hin
      exact absurd hout hin
  | signal hin =>
      refine ⟨rfl, fun r hr => ?_, fun r hr _ => ?_⟩
      · by_cases hrp : r = p
        · simp [hrp]
        · simpa [Function.update_of_ne hrp] using hr
      · rw [List.mem_singleton.mp hr]
        exact Function.update_self ..

theorem killFasync_signals {owner : ι → Option ι} {queue : List ι}
    (h : killFasync owner queue poll = .ok poll') :
    Signals poll poll' (queue.filterMap owner) := by
  induction queue generalizing poll with
  | nil =>
      cases h
      exact ⟨rfl, fun _ => id, nofun⟩
  | cons f queue ih =>
      cases howner : owner f with
      | none =>
          rw [List.filterMap_cons_none howner]
          simp only [killFasync, howner] at h
          exact ih h
      | some p =>
          rw [List.filterMap_cons_some howner]
          simp only [killFasync, howner, Outcome.bind_eq_ok] at h
          obtain ⟨next, hstep, hrest⟩ := h
          have hone := step_signals hstep
          have hmore := ih hrest
          refine ⟨hmore.pc.trans hone.pc, fun r hr => hmore.stays r (hone.stays r hr), ?_⟩
          intro r hr hin
          rcases List.mem_cons.mp hr with rfl | hlater
          · exact hmore.stays r (hone.reaches r List.mem_cons_self hin)
          · exact hmore.reaches r hlater (by rwa [hone.pc])

/-! ## Runs -/

namespace World

/-- Left asleep, with no signal to come. -/
def Left (w : World ι) (r : ι) : Prop := LeftAsleep w.poll r ∧ ∀ p, w.sending p = false

/-- The owner of a file on the queue. -/
def Notified (w : World ι) (r : ι) : Prop := ∃ f ∈ w.asyncQueue, w.owner f = some r

def OwnersWake (w : World ι) : Prop := ∀ r, w.Notified r → ¬ w.Left r

/-- The step makes `r` the owner of a file on the queue. -/
def Registers (w : World ι) : Event ι → ι → Prop
  | .fasync f true, r => w.owner f = some r
  | .setOwner f (some p), r => f ∈ w.asyncQueue ∧ p = r
  | _, _ => False

def RegistersInTime (w : World ι) (e : Event ι) : Prop := ∀ r, w.Registers e r → ¬ w.Left r

variable {w w' : World ι} {e : Event ι} {r : ι}

omit [DecidableEq ι] in
theorem initial_ownersWake (content : ℕ → UInt8) : OwnersWake (initial content : World ι) := by
  rintro r ⟨f, hf, -⟩
  cases hf

theorem notified_of_fasync {f : ι} {mode : Bool}
    (h : Notified { w with asyncQueue := chardrvFasync f mode w.asyncQueue } r) :
    w.Notified r ∨ w.Registers (.fasync f mode) r := by
  obtain ⟨g, hg, howner⟩ := h
  simp only [chardrvFasync] at hg
  split at hg
  · next hmode =>
      subst hmode
      split at hg
      · exact .inl ⟨g, hg, howner⟩
      · rcases List.mem_cons.mp hg with rfl | hold
        · exact .inr howner
        · exact .inl ⟨g, hold, howner⟩
  · exact .inl ⟨g, List.mem_of_mem_erase hg, howner⟩

theorem notified_of_setOwner {f : ι} {p : Option ι}
    (h : Notified { w with owner := Function.update w.owner f p } r) :
    w.Notified r ∨ w.Registers (.setOwner f p) r := by
  obtain ⟨g, hg, howner⟩ := h
  change Function.update w.owner f p g = some r at howner
  by_cases hgf : g = f
  · subst hgf
    rw [Function.update_self] at howner
    subst howner
    exact .inr ⟨hg, rfl⟩
  · rw [Function.update_of_ne hgf] at howner
    exact .inl ⟨g, hg, howner⟩

theorem sending_of_after {e : Poll.Event ι} (hnone : ∀ p, sendingAfter w.sending e p = false) :
    (∀ p, w.sending p = false) ∧ ∀ p, e ≠ .announce p := by
  cases e with
  | announce p => exact absurd (hnone p) (by simp [sendingAfter])
  | _ => exact ⟨hnone, nofun⟩

theorem step_ownersWake (hw : OwnersWake w) (hC : RegistersInTime w e) (h : w.step e = .ok w') :
    OwnersWake w' := by
  cases e with
  | driver e =>
      simp only [step] at h
      split at h
      · cases h
      · simp only [Outcome.bind_eq_ok, Except.ok.injEq] at h
        obtain ⟨poll, hstep, rfl⟩ := h
        rintro r hnotified ⟨hleft, hnone⟩
        obtain ⟨hbefore, hquiet⟩ := sending_of_after hnone
        exact hw r hnotified ⟨hleft.of_step hstep hquiet, hbefore⟩
  | setOwner f p =>
      cases h
      rintro r hnotified hleft
      rcases notified_of_setOwner hnotified with hold | hnew
      · exact hw r hold hleft
      · exact hC r hnew hleft
  | fasync f mode =>
      cases h
      rintro r hnotified hleft
      rcases notified_of_fasync hnotified with hold | hnew
      · exact hw r hold hleft
      · exact hC r hnew hleft
  | killFasync p =>
      simp only [step] at h
      split at h
      · simp only [Outcome.bind_eq_ok, Except.ok.injEq] at h
        obtain ⟨poll, hkill, rfl⟩ := h
        rintro r ⟨f, hf, howner⟩ ⟨hleft, -⟩
        have howns : r ∈ w.asyncQueue.filterMap w.owner := List.mem_filterMap.mpr ⟨f, hf, howner⟩
        exact (killFasync_signals hkill).not_stuck howns hleft.stuck
      · cases h

/-- Who is made an owner too late sleeps on. -/
theorem registers_late (hr : w.Registers e r) (hleft : w.Left r) :
    ∃ w', w.step e = .ok w' ∧ ¬ OwnersWake w' := by
  cases e with
  | fasync f mode =>
      cases mode with
      | false => exact hr.elim
      | true =>
          refine ⟨_, rfl, fun hwake => hwake r ⟨f, ?_, hr⟩ hleft⟩
          simp only [chardrvFasync, if_true]
          split
          · assumption
          · exact List.mem_cons_self
  | setOwner f p =>
      cases p with
      | none => exact hr.elim
      | some p =>
          obtain ⟨hf, rfl⟩ := hr
          exact ⟨_, rfl, fun hwake => hwake p ⟨f, hf, Function.update_self ..⟩ hleft⟩
  | driver e => exact hr.elim
  | killFasync p => exact hr.elim

/-- Every run is one of lab5_char_poll with the signals of `kill_fasync`. In all its states the
owners of the files on `async_queue` have woken up when the writers are done, exactly when no
step makes a process such an owner that has been left asleep before. -/
theorem owners_wake_iff (content : ℕ → UInt8) (es : List (Event ι)) :
    Runs.Refines step Poll.World.step ops World.poll (initial content) es ∧
      (Runs.Always step OwnersWake (initial content) es ↔
        Runs.Along step RegistersInTime (initial content) es) := by
  constructor
  · rw [Runs.refines_iff_along]
    exact Runs.along_of_forall (fun w e w' h => step_ops h) _ es
  · apply Runs.always_iff_along (fun _ hw => hw) (fun _ _ _ hw hC h => step_ownersWake hw hC h) ?_
      (initial_ownersWake content)
    intro w e _ hC
    simp only [RegistersInTime, not_forall, not_not] at hC
    obtain ⟨r, hr, hleft⟩ := hC
    exact registers_late hr hleft

/-- The reader that lab5_char_poll leaves asleep here is signalled. -/
example : ∃ w : World ℕ, Runs.exec step (initial fun _ => 0)
    ([.setOwner 1 (some 1), .fasync 1 true] ++
      [.read 1 1, .test 1, .write 2 [7] 1, .wakeUp 2, .test 1, .announce 2].map .driver ++
      [.killFasync 2]) = .ok w ∧ w.poll.signalled 1 = true :=
  ⟨_, rfl, rfl⟩

end World

end LddSamples.Char.Fasync

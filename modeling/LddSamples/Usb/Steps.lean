import LddSamples.Usb.CallSteps

/-!
# What a step of the whole can do

The calls begin and end outside `io_mutex` and without a token. The bus goes through the stages
of a disconnect in one direction, and each stage has waited for what it stands for.
-/

namespace LddSamples.Usb

open Kernel Outcome

/-! ## Calls that begin and end -/

/-- `skel_read`, `skel_write` or `skel_flush` as they are called. -/
inductive Call.Begins (f : ℕ) : Event → ℕ → Call → Prop
  | read (c count : ℕ) (nonblock : Bool) :
      Begins f (.read c f count nonblock) c (.beginRead f count nonblock)
  | write (c : ℕ) (data : List UInt8) (nonblock : Bool) :
      Begins f (.write c f data nonblock) c (.beginWrite f data nonblock)
  | flush (c : ℕ) : Begins f (.flush c f) c (.flush f .locking)

/-- A call that is outside of everything. -/
structure Call.Outside (call : Call) : Prop where
  inside : ¬ call.Inside
  window : ¬ call.MaySubmit

theorem Call.Outside.absent : Call.Outside .absent := ⟨id, id⟩

structure Call.Fresh (f : ℕ) (call : Call) : Prop extends call.Outside where
  uses : ∀ g, call.Uses g ↔ f = g
  underWay : ¬ call.UnderWay
  token : ¬ call.HoldsToken
  sound : call.Sound

theorem Call.Begins.fresh {f c : ℕ} {e : Event} {call : Call} (h : Begins f e c call) :
    call.Fresh f := by
  cases h with
  | read c count nonblock =>
      by_cases hcount : count = 0
      · rw [beginRead, if_pos hcount]
        exact ⟨⟨id, id⟩, fun g => and_iff_left trivial, id, id, trivial⟩
      · rw [beginRead, if_neg hcount]
        exact ⟨⟨id, id⟩, fun g => and_iff_left trivial, id, id, trivial⟩
  | write c data nonblock =>
      by_cases hdata : data.length = 0
      · rw [beginWrite, if_pos hdata]
        refine ⟨⟨id, id⟩, fun g => and_iff_left trivial, id, id,
          ⟨fun _ => ⟨?_, ⟨rfl, Nat.zero_le 1⟩, nofun⟩, fun h => absurd rfl h, nofun,
            fun _ => ⟨trivial, rfl⟩⟩⟩
        exact .inr ⟨rfl, List.eq_nil_of_length_eq_zero hdata⟩
      · rw [beginWrite, if_neg hdata]
        exact ⟨⟨id, id⟩, fun g => and_iff_left trivial, id, id,
          ⟨fun _ => ⟨rfl, rfl⟩, fun h => absurd rfl h, nofun,
            fun h => absurd (congrArg List.length h) hdata⟩⟩
  | flush c => exact ⟨⟨id, id⟩, fun g => and_iff_left trivial, id, id, trivial⟩

/-- A call that returns to the VFS keeps nothing but the request that it may have under way. -/
structure Call.Ends (f : ℕ) (call call' : Call) : Prop where
  before : call.Outside
  after : call'.Outside
  uses : call.Uses f
  unused : ∀ g, ¬ call'.Uses g
  underWay : call'.UnderWay ↔ call.UnderWay
  token : call'.HoldsToken ↔ call.HoldsToken
  sound : call.Sound → call'.Sound

theorem WriteCall.ends {f : ℕ} {w : WriteCall} {retval : ℤ} (hpc : w.pc = .leaving retval) :
    (Call.write f w).Ends f (.write f { w with pc := .returned retval }) := by
  have hactive : w.pc.Active := hpc ▸ trivial
  refine ⟨⟨?_, ?_⟩, ⟨id, id⟩, ⟨rfl, hactive⟩, fun g h => h.2, Iff.rfl, ?_, fun hw => ?_⟩
  · exact fun h : w.pc.Inside => by rwa [hpc] at h
  · exact fun h : w.pc.MaySubmit => by rwa [hpc] at h
  · exact WriteCall.holdsToken_congr rfl fun _ => by rw [hpc]; exact Iff.rfl
  · refine ⟨fun h => ?_, fun h => ?_, hw.failed, fun h => ⟨trivial, (hw.empty h).2⟩⟩
    · have hunsent := hw.unsent h
      rwa [hpc] at hunsent
    · obtain ⟨hsucceeds, hurb, hbuf⟩ := hw.sent h
      rw [hpc] at hsucceeds hurb
      exact ⟨hsucceeds, hurb, hbuf⟩

theorem Call.finish_ends {f : ℕ} {call call' : Call} (h : call.finish = some (f, call')) :
    call.Ends f call' := by
  unfold finish at h
  split at h
  · cases h
    exact ⟨⟨id, id⟩, ⟨id, id⟩, ⟨rfl, trivial⟩, fun g h => h.2, Iff.rfl, Iff.rfl, id⟩
  · split at h
    · next hpc =>
      cases h
      exact WriteCall.ends hpc
    · cases h
  · cases h
    exact ⟨⟨id, id⟩, ⟨id, id⟩, ⟨rfl, trivial⟩, fun g h => h.2, Iff.rfl, Iff.rfl, id⟩
  · cases h

theorem Call.Uses.unique {f g : ℕ} {call : Call} (hf : call.Uses f) (hg : call.Uses g) : f = g := by
  cases call with
  | absent => exact absurd hf id
  | read file args pc => exact hf.1.symm.trans hg.1
  | write file w => exact hf.1.symm.trans hg.1
  | flush file pc => exact hf.1.symm.trans hg.1

/-! ## The bus -/

/-- How far a disconnect has come. -/
def Bus.phase : Bus → ℕ
  | .cleared => 1
  | .deregistered => 2
  | .marking => 2
  | .marked => 3
  | .readKilled => 4
  | .killed => 5
  | .gone => 6
  | _ => 0

def Bus.Inside : Bus → Prop
  | .drawing reset => reset = true
  | .drawn reset => reset = true
  | .resetting => True
  | .noted => True
  | .marking => True
  | _ => False

structure Bus.Moves (k : Skel) (bus : Bus) (k' : Skel) (bus' : Bus) : Prop where
  kref : k'.kref = k.kref
  submitted : k'.submitted = k.submitted
  bulkInUrb : k'.bulkInUrb = k.bulkInUrb
  limitSem : k'.limitSem = k.limitSem
  lock : Lock.Move Owner.bus bus.Inside bus'.Inside k.ioMutex k'.ioMutex
  notGone : bus.phase < 6 ∧ bus'.phase < 6
  deregistered : 2 ≤ bus'.phase → 2 ≤ bus.phase
  disconnected : k'.disconnected = k.disconnected ∨ bus.Inside
  marked : 3 ≤ bus'.phase →
    k'.disconnected = true ∨ 3 ≤ bus.phase ∧ k'.disconnected = k.disconnected
  readKilled : 4 ≤ bus'.phase → 4 ≤ bus.phase ∨ k.bulkInUrb.Idle
  killed : 5 ≤ bus'.phase → 5 ≤ bus.phase ∨ k.submitted = 0

/-- A move of the bus that neither ends a wait for requests nor goes past a stage. -/
theorem Bus.moves {k k' : Skel} {bus bus' : Bus}
    (hsame : (k'.kref, k'.submitted, k'.bulkInUrb, k'.limitSem, k'.disconnected) =
      (k.kref, k.submitted, k.bulkInUrb, k.limitSem, k.disconnected))
    (hlock : Lock.Move Owner.bus bus.Inside bus'.Inside k.ioMutex k'.ioMutex)
    (hbus : bus.phase < 3) (hbus' : bus'.phase < 3) (hstage : 2 ≤ bus'.phase → 2 ≤ bus.phase) :
    Safely (fun r => bus.Moves k r.1 r.2) (.ok (k', bus')) := by
  simp only [Prod.mk.injEq] at hsame
  obtain ⟨hkref, hsubmitted, hurb, hlimit, hdisconnected⟩ := hsame
  refine ⟨hkref, hsubmitted, hurb, hlimit, hlock, ⟨by omega, hbus'.trans (by decide)⟩, hstage,
    .inl hdisconnected, fun h => ?_, fun h => ?_, fun h => ?_⟩
  all_goals
    have hle := h.trans_lt hbus'
    omega

theorem busStep_moves (k : Skel) (bus : Bus) (e : BusEvent) :
    Safely (fun r => bus.Moves k r.1 r.2) (busStep k bus e) := by
  unfold busStep
  split
  · exact Bus.moves rfl (.stays (iff_of_false nofun id)) (by decide) (by decide) nofun
  · refine meets_ite (fun hfree => ?_) fun _ => rfl
    exact Bus.moves rfl (.acquires hfree rfl) (by decide) (by decide) nofun
  · refine meets_ite (fun _ => ?_) fun _ => rfl
    exact Bus.moves rfl (.stays Iff.rfl) (Nat.zero_lt_succ 2) (Nat.zero_lt_succ 2) nofun
  · next reset =>
    refine meets_ite (fun _ => ?_) fun _ => rfl
    cases reset with
    | true => exact Bus.moves rfl (.stays (iff_of_true trivial rfl)) (by decide) (by decide) nofun
    | false => exact Bus.moves rfl (.stays (iff_of_false id nofun)) (by decide) (by decide) nofun
  · exact Bus.moves rfl (.stays Iff.rfl) (by decide) (by decide) nofun
  · exact Bus.moves rfl (.releases trivial id) (by decide) (by decide) nofun
  · exact Bus.moves rfl (.stays Iff.rfl) (by decide) (by decide) nofun
  · refine meets_ite (fun hfree => ?_) fun _ => rfl
    exact Bus.moves rfl (.acquires hfree trivial) (by decide) (by decide) id
  -- the mark, and the two kills behind it
  · refine ⟨rfl, rfl, rfl, rfl, .releases trivial id, ?_, ?_, .inr trivial, ?_, ?_, ?_⟩
    all_goals simp [Bus.phase]
  · refine meets_ite (fun hidle => ?_) fun _ => rfl
    refine ⟨rfl, rfl, rfl, rfl, .stays Iff.rfl, ?_, ?_, .inl rfl, ?_, ?_, ?_⟩
    all_goals simp [Bus.phase, hidle]
  · refine meets_ite (fun hnone => ?_) fun _ => rfl
    refine ⟨rfl, rfl, rfl, rfl, .stays Iff.rfl, ?_, ?_, .inl rfl, ?_, ?_, ?_⟩
    all_goals simp [Bus.phase, hnone]
  · rfl

/-! ## The whole -/

/-- The callback of a read leaves what does not belong to reads as it is. -/
theorem Skel.readCallback_same (k : Skel) (status : ℤ) (data : List UInt8) :
    let k' := k.readCallback status data
    k'.kref = k.kref ∧ k'.limitSem = k.limitSem ∧ k'.submitted = k.submitted ∧
      k'.ioMutex = k.ioMutex ∧ k'.disconnected = k.disconnected := by
  unfold readCallback
  split
  · exact ⟨rfl, rfl, rfl, rfl, rfl⟩
  · exact ⟨rfl, rfl, rfl, rfl, rfl⟩

inductive World.Does (s : World) : Event → World → Prop
  | openFind {f : ℕ} (hdata : s.bus.hasIntfdata) (hfile : s.files f = .closed) :
      Does s (.openFind f) { s.setFile f .opening with openers := s.openers + 1 }
  | openFail {f : ℕ} (hfile : s.files f = .opening) :
      Does s (.openFail f) { s.setFile f .released with openers := s.openers - 1 }
  | openGet {f : ℕ} (hfile : s.files f = .opening) :
      Does s (.openGet f) { s.setFile f .opened with
        openers := s.openers - 1
        skel := { s.skel with kref := s.skel.kref + 1 }
        fds := Function.update s.fds f 1 }
  | dup {f : ℕ} (hfd : 0 < s.fds f) :
      Does s (.dup f) { s with fds := Function.update s.fds f (s.fds f + 1) }
  | close {f : ℕ} (hfd : 0 < s.fds f) :
      Does s (.close f) { s with fds := Function.update s.fds f (s.fds f - 1) }
  | release {f : ℕ} (hfile : s.files f = .opened) (hfd : s.fds f = 0) (husers : s.users f = 0) :
      Does s (.release f) (s.setFile f .released).krefPut
  | enter {e : Event} {c f : ℕ} {call : Call} (hbegins : call.Begins f e c)
      (habsent : s.calls c = .absent) (hfd : 0 < s.fds f) :
      Does s e { s.setCall c call with users := Function.update s.users f (s.users f + 1) }
  | inCall {c : ℕ} {e : CallEvent} {k : Skel} {call : Call}
      (hstep : (s.calls c).step c s.skel e = .ok (k, call)) :
      Does s (.inCall c e) { s.setCall c call with skel := k }
  | hcd {c f : ℕ} {e : HcdEvent} {k : Skel} {w w' : WriteCall} (hcall : s.calls c = .write f w)
      (hstep : hcdStep s.skel w w.hcd e = .ok (k, w')) :
      Does s (.hcd c e) { s.setCall c (.write f w') with skel := k }
  | finish {c f : ℕ} {call : Call} (hfinish : (s.calls c).finish = some (f, call)) :
      Does s (.finish c)
        { s.setCall c call with users := Function.update s.users f (s.users f - 1) }
  | completeRead {status : ℤ} {data : List UInt8} {length : ℕ}
      (hflight : s.skel.bulkInUrb.flight = some length) (hlength : data.length ≤ length) :
      Does s (.completeRead status data) { s with skel := s.skel.readCallback status data }
  | wakeReaders (hcallbacks : 0 < s.skel.bulkInUrb.callbacks) :
      Does s .wakeReaders { s with skel := { s.skel with
        bulkInUrb := ⟨s.skel.bulkInUrb.flight, s.skel.bulkInUrb.callbacks - 1⟩ } }
  | inBus {e : BusEvent} {k : Skel} {bus : Bus} (hstep : busStep s.skel s.bus e = .ok (k, bus)) :
      Does s (.inBus e) { s with skel := k, bus := bus }
  | deregister (hbus : s.bus = .cleared) (hopeners : s.openers = 0) :
      Does s .deregister { s with bus := .deregistered }
  | putInterface (hbus : s.bus = .killed) :
      Does s .putInterface { s with bus := .gone }.krefPut

theorem World.enter_does {s : World} {e : Event} {c f : ℕ} {call : Call}
    (hbegins : call.Begins f e c) : Safely (s.Does e) (s.enter c f call) := by
  unfold enter
  split
  · exact meets_ite (.enter hbegins ‹_›) fun _ => rfl
  · rfl

theorem World.move_does {s : World} (hsound : ∀ c, (s.calls c).Sound) (e : Event) :
    Safely (s.Does e) (s.move e) := by
  cases e with
  | openFind f => exact meets_ite (fun h => .openFind h.1 h.2) fun _ => rfl
  | openFail f => exact meets_ite .openFail fun _ => rfl
  | openGet f => exact meets_ite .openGet fun _ => rfl
  | dup f => exact meets_ite .dup fun _ => rfl
  | close f => exact meets_ite .close fun _ => rfl
  | release f => exact meets_ite (fun h => .release h.1 h.2.1 h.2.2) fun _ => rfl
  | read c f count nonblock => exact enter_does (.read c count nonblock)
  | write c f data nonblock => exact enter_does (.write c data nonblock)
  | flush c f => exact enter_does (.flush c)
  | inCall c e => exact (Call.step_sound s.skel (hsound c) e).bind_eq fun r hstep _ => .inCall hstep
  | hcd c e =>
      simp only [move]
      split
      · next f w hcall =>
        have hw : w.Sound := (hcall ▸ hsound c : (Call.write f w).Sound)
        exact (hcdStep_sound s.skel hw rfl e).bind_eq fun r hstep _ => .hcd hcall hstep
      · rfl
  | finish c =>
      simp only [move]
      split
      · exact .finish ‹_›
      · rfl
  | completeRead status data =>
      simp only [move]
      split
      · exact meets_ite (.completeRead ‹_›) fun _ => rfl
      · rfl
  | wakeReaders => exact meets_ite .wakeReaders fun _ => rfl
  | inBus e => exact (busStep_moves s.skel s.bus e).bind_eq fun r hstep _ => .inBus hstep
  | deregister =>
      simp only [move]
      split
      · exact meets_ite (.deregister ‹_›) fun _ => rfl
      · rfl
  | putInterface =>
      simp only [move]
      split
      · exact .putInterface ‹_›
      · rfl

end LddSamples.Usb

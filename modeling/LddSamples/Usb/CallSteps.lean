import LddSamples.Library.Census
import LddSamples.Library.Lock
import LddSamples.Usb.Requests

/-!
# What a step of a call can do

All that the invariants of the device need to know of a step of a read, a write or a flush:
which file the call holds, whether it is inside `io_mutex` and may still submit, whether its
request is under way, and whether it has one of the tokens of `limit_sem`.
-/

namespace LddSamples.Usb

open Kernel Outcome

def ReadPc.Active : ReadPc → Prop
  | .returned _ => False
  | _ => True

def ReadPc.Inside : ReadPc → Prop
  | .locking => False
  | .leaving _ => False
  | .returned _ => False
  | _ => True

/-- Inside, and past the test of `disconnected`. -/
def ReadPc.MaySubmit : ReadPc → Prop
  | .unlocking _ => False
  | pc => pc.Inside

def WritePc.Active : WritePc → Prop
  | .returned _ => False
  | _ => True

def WritePc.Inside : WritePc → Prop
  | .anchoring => True
  | .submitting => True
  | .unlocking _ => True
  | _ => False

def WritePc.MaySubmit : WritePc → Prop
  | .anchoring => True
  | .submitting => True
  | _ => False

/-- Between `down` and `up`, where the request has not been submitted. -/
def WritePc.Throttled : WritePc → Prop
  | .downing => False
  | .leaving _ => False
  | .returned _ => False
  | _ => True

def Hcd.UnderWay : Hcd → Prop
  | .inFlight => True
  | .reporting _ => True
  | .freeing => True
  | .upping => True
  | _ => False

/-- A submitted request takes the token with it, and its callback puts it back. -/
def WriteCall.HoldsToken (w : WriteCall) : Prop :=
  match w.hcd with
  | .never => w.pc.Throttled
  | hcd => hcd.UnderWay

def FlushPc.Active : FlushPc → Prop
  | .returned _ => False
  | _ => True

def FlushPc.Inside : FlushPc → Prop
  | .locking => False
  | .leaving _ => False
  | .returned _ => False
  | _ => True

namespace Call

def Uses (f : ℕ) : Call → Prop
  | .absent => False
  | .read file _ pc => file = f ∧ pc.Active
  | .write file w => file = f ∧ w.pc.Active
  | .flush file pc => file = f ∧ pc.Active

def Inside : Call → Prop
  | .absent => False
  | .read _ _ pc => pc.Inside
  | .write _ w => w.pc.Inside
  | .flush _ pc => pc.Inside

def MaySubmit : Call → Prop
  | .read _ _ pc => pc.MaySubmit
  | .write _ w => w.pc.MaySubmit
  | _ => False

theorem MaySubmit.inside {call : Call} (h : call.MaySubmit) : call.Inside := by
  cases call with
  | read file args pc =>
      cases pc with
      | locking => exact h
      | leaving rv => exact h
      | returned rv => exact h
      | _ => trivial
  | write file w =>
      change w.pc.MaySubmit at h
      change w.pc.Inside
      cases hpc : w.pc with
      | anchoring => trivial
      | submitting => trivial
      | unlocking retval => trivial
      | _ =>
          rw [hpc] at h
          exact h
  | absent => exact h
  | flush file pc => exact False.elim h

def UnderWay : Call → Prop
  | .write _ w => w.hcd.UnderWay
  | _ => False

def HoldsToken : Call → Prop
  | .write _ w => w.HoldsToken
  | _ => False

def Sound : Call → Prop
  | .write _ w => w.Sound
  | _ => True

/-- What a step of the call numbered `c` does to the device and to the call. -/
structure Moves (c : ℕ) (k : Skel) (call : Call) (k' : Skel) (call' : Call) : Prop where
  kref : k'.kref = k.kref
  disconnected : k'.disconnected = k.disconnected
  busy : ∃ f, call.Uses f
  uses : ∀ f, call'.Uses f ↔ call.Uses f
  lock : Lock.Move (.call c) call.Inside call'.Inside k.ioMutex k'.ioMutex
  window : call'.MaySubmit → call.MaySubmit ∨ k.disconnected = false
  reads : k'.bulkInUrb = k.bulkInUrb ∨ call.MaySubmit
  writes : k'.submitted = k.submitted ∨ call.MaySubmit
  underWay : Census.Move UnderWay call call' k.submitted k'.submitted
  limit : Census.Draw HoldsToken call call' k.limitSem k'.limitSem

end Call

section

variable {c : ℕ} {k k' : Skel}

theorem ReadPc.moves {file : ℕ} {args : ReadArgs} {pc pc' : ReadPc} (hactive : pc.Active)
    (hactive' : pc'.Active)
    (hsame : (k'.kref, k'.disconnected, k'.submitted, k'.limitSem) =
      (k.kref, k.disconnected, k.submitted, k.limitSem))
    (hlock : Lock.Move (.call c) pc.Inside pc'.Inside k.ioMutex k'.ioMutex)
    (hwindow : pc'.MaySubmit → pc.MaySubmit ∨ k.disconnected = false)
    (hreads : k'.bulkInUrb = k.bulkInUrb ∨ pc.MaySubmit) :
    Yields (fun r => (Call.read file args pc).Moves c k r.1 (.read file args r.2))
      (.ok (k', pc')) := by
  simp only [Prod.mk.injEq] at hsame
  obtain ⟨hkref, hdisconnected, hsubmitted, hlimit⟩ := hsame
  refine ⟨hkref, hdisconnected, ⟨file, rfl, hactive⟩, fun f => ?_, hlock, hwindow, hreads,
    .inl hsubmitted, hsubmitted ▸ .stays Iff.rfl, hlimit ▸ .stays Iff.rfl⟩
  exact and_congr_right fun _ => iff_of_true hactive' hactive

theorem readStep_moves (k : Skel) (file : ℕ) (args : ReadArgs) (pc : ReadPc) (e : ReadEvent) :
    Yields (fun r => (Call.read file args pc).Moves c k r.1 (.read file args r.2))
      (readStep c args k pc e) := by
  unfold readStep
  split
  · refine meets_ite (fun hfree => ?_) fun _ => trivial
    refine ReadPc.moves trivial ?_ rfl (.acquires hfree ?_) ?_ (.inl rfl)
    · split <;> trivial
    · split <;> trivial
    · split
      · exact False.elim
      · exact fun _ => .inr (Bool.eq_false_of_not_eq_true ‹_›)
  · refine meets_ite (fun _ => trivial) fun _ => ?_
    exact ReadPc.moves trivial trivial rfl (.stays Iff.rfl) False.elim (.inl rfl)
  · refine ReadPc.moves trivial ?_ rfl (.stays (iff_of_true ?_ trivial))
      (fun _ => .inl trivial) (.inl rfl)
    all_goals
      split
      · split <;> trivial
      · trivial
  · refine meets_ite (fun _ => trivial) fun _ => ?_
    exact ReadPc.moves trivial trivial rfl (.stays Iff.rfl) (fun _ => .inl trivial)
      (.inl rfl)
  · refine meets_ite (fun _ => ?_) fun _ => trivial
    exact ReadPc.moves trivial trivial rfl (.stays Iff.rfl) False.elim (.inl rfl)
  · refine meets_ite (fun _ => ?_) fun _ => ?_
    · exact ReadPc.moves trivial trivial rfl (.stays Iff.rfl)
        (fun _ => .inl trivial) (.inl rfl)
    · exact ReadPc.moves trivial trivial rfl (.stays Iff.rfl)
        (fun _ => .inl trivial) (.inl rfl)
  · exact ReadPc.moves trivial trivial rfl (.stays Iff.rfl) False.elim (.inl rfl)
  · refine meets_ite (fun _ => ?_) fun _ => ?_
    · exact ReadPc.moves trivial trivial rfl (.stays Iff.rfl)
        (fun _ => .inl trivial) (.inl rfl)
    · refine ReadPc.moves trivial ?_ rfl (.stays (iff_of_true ?_ trivial))
        (fun _ => .inl trivial) (.inl rfl)
      all_goals split <;> trivial
  · exact ReadPc.moves trivial trivial rfl (.stays Iff.rfl) (fun _ => .inl trivial)
      (.inl rfl)
  · refine meets_ite (fun _ => ?_) fun _ => ?_
    · refine ReadPc.moves trivial ?_ rfl (.stays (iff_of_true ?_ trivial))
        (fun _ => .inl trivial) (.inr trivial)
      all_goals split <;> trivial
    · exact ReadPc.moves trivial trivial rfl (.stays Iff.rfl)
        (fun _ => .inl trivial) (.inl rfl)
  · refine ReadPc.moves trivial ?_ rfl (.stays (iff_of_true ?_ trivial))
        (fun _ => .inl trivial) (.inl rfl)
    all_goals split <;> trivial
  · exact ReadPc.moves trivial trivial rfl (.releases trivial id) False.elim
      (.inl rfl)
  · exact trivial

theorem WriteCall.holdsToken_of_never (w : WriteCall) (h : w.hcd = .never) :
    w.HoldsToken ↔ w.pc.Throttled := by
  simp only [HoldsToken, h]

theorem WriteCall.holdsToken_of_sent (w : WriteCall) (h : w.hcd ≠ .never) :
    w.HoldsToken ↔ w.hcd.UnderWay := by
  cases hhcd : w.hcd with
  | never => exact absurd hhcd h
  | _ => simp only [HoldsToken, hhcd]

theorem WriteCall.holdsToken_congr {w w' : WriteCall} (hhcd : w'.hcd = w.hcd)
    (hpc : w.hcd = .never → (w'.pc.Throttled ↔ w.pc.Throttled)) : w'.HoldsToken ↔ w.HoldsToken := by
  by_cases h : w.hcd = .never
  · rw [holdsToken_of_never w' (hhcd.trans h), holdsToken_of_never w h, hpc h]
  · rw [holdsToken_of_sent w' (hhcd ▸ h), holdsToken_of_sent w h, hhcd]

theorem WriteCall.Sound.never_of {w : WriteCall} (hw : w.Sound) (h : ¬ w.pc.Succeeds w.writesize) :
    w.hcd = .never := by
  by_contra hsent
  exact h (hw.sent hsent).succeeds

theorem WriteCall.moves {file : ℕ} {w w' : WriteCall} {pc : WritePc} (hpc : w.pc = pc)
    (hactive : pc.Active) (hactive' : w'.pc.Active) (hhcd : w'.hcd = w.hcd)
    (hsame : (k'.kref, k'.disconnected, k'.submitted, k'.bulkInUrb) =
      (k.kref, k.disconnected, k.submitted, k.bulkInUrb))
    (hlock : Lock.Move (.call c) pc.Inside w'.pc.Inside k.ioMutex k'.ioMutex)
    (hwindow : w'.pc.MaySubmit → pc.MaySubmit ∨ k.disconnected = false)
    (hlimit : Census.Draw Call.HoldsToken (.write file w) (.write file w') k.limitSem k'.limitSem) :
    Yields (fun r => (Call.write file w).Moves c k r.1 (.write file r.2)) (.ok (k', w')) := by
  simp only [Prod.mk.injEq] at hsame
  obtain ⟨hkref, hdisconnected, hsubmitted, hurb⟩ := hsame
  subst hpc
  refine ⟨hkref, hdisconnected, ⟨file, rfl, hactive⟩, fun f => ?_, hlock, hwindow, .inl hurb,
    .inl hsubmitted, hsubmitted ▸ .stays ?_, hlimit⟩
  · exact and_congr_right fun _ => iff_of_true hactive' hactive
  · exact iff_of_eq (congrArg Hcd.UnderWay hhcd)

theorem writeStep_moves (k : Skel) (file : ℕ) {w : WriteCall} (hw : w.Sound) {pc : WritePc}
    (hpc : w.pc = pc) (e : WriteEvent) :
    Yields (fun r => (Call.write file w).Moves c k r.1 (.write file r.2))
      (writeStep c k w pc e) := by
  have hnever : ¬ pc.Succeeds w.writesize → w.hcd = .never := fun h => hw.never_of (hpc ▸ h)
  have hstays : ∀ w' : WriteCall, w'.hcd = w.hcd → pc.Throttled → w'.pc.Throttled →
      Census.Draw Call.HoldsToken (.write file w) (.write file w') k.limitSem k.limitSem :=
    fun w' hhcd h h' => .stays (WriteCall.holdsToken_congr hhcd fun _ => iff_of_true h' (hpc ▸ h))
  unfold writeStep
  split
  case h_16 => exact trivial
  case h_1 =>
    have hhcd := hnever id
    have hout : ¬ w.HoldsToken := by
      rw [WriteCall.holdsToken_of_never w hhcd, hpc]
      exact id
    refine meets_ite (fun hfree => ?_) fun _ => meets_ite (fun _ => ?_) fun _ => trivial
    · have hin := (WriteCall.holdsToken_of_never { w with pc := .looking } hhcd).mpr trivial
      exact WriteCall.moves hpc trivial trivial rfl rfl (.stays Iff.rfl)
        False.elim (.takes hfree hout hin)
    · refine WriteCall.moves hpc trivial trivial rfl rfl (.stays Iff.rfl)
        False.elim (.stays (WriteCall.holdsToken_congr rfl fun _ => ?_))
      rw [hpc]
      exact Iff.rfl
  case h_2 =>
    refine meets_ite (fun _ => trivial) fun _ => ?_
    refine WriteCall.moves hpc trivial trivial rfl rfl (.stays Iff.rfl)
      False.elim (.stays (WriteCall.holdsToken_congr rfl fun _ => ?_))
    rw [hpc]
    exact Iff.rfl
  case h_3 =>
    refine meets_ite (fun _ => ?_) fun _ => ?_
    · exact WriteCall.moves hpc trivial trivial rfl rfl (.stays Iff.rfl)
        False.elim (hstays _ rfl trivial trivial)
    · exact WriteCall.moves hpc trivial trivial rfl rfl (.stays Iff.rfl)
        False.elim (hstays _ rfl trivial trivial)
  case h_4 =>
    refine WriteCall.moves hpc trivial ?_ ?_ rfl (.stays ?_) ?_
      (hstays _ ?_ trivial ?_)
    all_goals split
    all_goals first | trivial | rfl | exact Iff.rfl | exact False.elim
  case h_5 =>
    refine WriteCall.moves hpc trivial ?_ ?_ rfl (.stays ?_) ?_
      (hstays _ ?_ trivial ?_)
    all_goals split
    all_goals first | trivial | rfl | exact Iff.rfl | exact False.elim
  case h_6 =>
    refine WriteCall.moves hpc trivial ?_ rfl rfl (.stays ?_) ?_
      (hstays _ rfl trivial ?_)
    all_goals dsimp only; split
    all_goals first | trivial | rfl | exact Iff.rfl | exact False.elim
  case h_7 =>
    refine meets_ite (fun hfree => meets_ite (fun _ => ?_) fun hdisc => ?_) fun _ => trivial
    · exact WriteCall.moves hpc trivial trivial rfl rfl (.stays Iff.rfl)
        False.elim (hstays _ rfl trivial trivial)
    · exact WriteCall.moves hpc trivial trivial rfl rfl (.acquires hfree trivial)
        (fun _ => .inr (Bool.eq_false_of_not_eq_true hdisc)) (hstays _ rfl trivial trivial)
  case h_8 =>
    exact WriteCall.moves hpc trivial trivial rfl rfl (.stays Iff.rfl)
      (fun _ => .inl trivial) (hstays _ rfl trivial trivial)
  case h_9 =>
    have hhcd := hnever id
    refine meets_ite (fun _ => ?_) fun _ => ?_
    · have hin := (WriteCall.holdsToken_of_never w hhcd).mpr (hpc ▸ trivial)
      have hidle : ¬ w.hcd.UnderWay := hhcd ▸ id
      have hactive : w.pc.Active := hpc ▸ trivial
      have hinside : w.pc.Inside := hpc ▸ trivial
      have hmay : w.pc.MaySubmit := hpc ▸ trivial
      exact ⟨rfl, rfl, ⟨file, rfl, hactive⟩,
        fun _ => and_congr_right fun _ => iff_of_true trivial hactive,
        .stays (iff_of_true trivial hinside), fun _ => .inl hmay, .inl rfl, .inr hmay,
        .enters hidle trivial, .stays (iff_of_true trivial hin)⟩
    · exact WriteCall.moves hpc trivial trivial rfl rfl (.stays Iff.rfl)
        False.elim (hstays _ rfl trivial trivial)
  case h_10 =>
    refine WriteCall.moves hpc trivial ?_ rfl rfl (.releases trivial ?_) ?_
      (hstays _ rfl trivial ?_)
    all_goals dsimp only; split
    all_goals first | trivial | exact False.elim
  case h_11 =>
    refine (meets_of_ok fun _ _ => trivial).bind fun urb _ => ?_
    refine WriteCall.moves hpc trivial trivial rfl rfl (.stays Iff.rfl)
      False.elim (.stays (WriteCall.holdsToken_congr rfl fun hhcd => ?_))
    have hunsent := hw.unsent hhcd
    rw [hpc] at hunsent
    exact absurd hunsent id
  case h_15 retval =>
    have hhcd := hnever id
    have hin := (WriteCall.holdsToken_of_never w hhcd).mpr (hpc ▸ trivial)
    refine WriteCall.moves hpc trivial trivial rfl rfl (.stays Iff.rfl)
      False.elim (.gives hin ?_)
    exact (WriteCall.holdsToken_of_never { w with pc := .leaving retval } hhcd).mp
  all_goals
    refine (meets_of_ok fun _ _ => trivial).bind fun _ _ => ?_
    exact WriteCall.moves hpc trivial trivial rfl rfl (.stays Iff.rfl)
      False.elim (hstays _ rfl trivial trivial)

theorem FlushPc.moves {file : ℕ} {pc pc' : FlushPc} (hactive : pc.Active) (hactive' : pc'.Active)
    (hsame : (k'.kref, k'.disconnected, k'.submitted, k'.limitSem, k'.bulkInUrb) =
      (k.kref, k.disconnected, k.submitted, k.limitSem, k.bulkInUrb))
    (hlock : Lock.Move (.call c) pc.Inside pc'.Inside k.ioMutex k'.ioMutex) :
    Yields (fun r => (Call.flush file pc).Moves c k r.1 (.flush file r.2)) (.ok (k', pc')) := by
  simp only [Prod.mk.injEq] at hsame
  obtain ⟨hkref, hdisconnected, hsubmitted, hlimit, hurb⟩ := hsame
  refine ⟨hkref, hdisconnected, ⟨file, rfl, hactive⟩, fun f => ?_, hlock, False.elim, .inl hurb,
    .inl hsubmitted, hsubmitted ▸ .stays Iff.rfl, hlimit ▸ .stays Iff.rfl⟩
  exact and_congr_right fun _ => iff_of_true hactive' hactive

theorem flushStep_moves (k : Skel) (file : ℕ) (pc : FlushPc) (e : FlushEvent) :
    Yields (fun r => (Call.flush file pc).Moves c k r.1 (.flush file r.2))
      (flushStep c k pc e) := by
  unfold flushStep
  split
  · refine meets_ite (fun hfree => ?_) fun _ => trivial
    exact FlushPc.moves trivial trivial rfl (.acquires hfree trivial)
  · refine meets_ite (fun _ => ?_) fun _ => trivial
    exact FlushPc.moves trivial trivial rfl (.stays Iff.rfl)
  · refine meets_ite (fun _ => ?_) fun _ => trivial
    exact FlushPc.moves trivial trivial rfl (.stays Iff.rfl)
  · refine meets_ite (fun _ => ?_) fun _ => ?_
    · exact FlushPc.moves trivial trivial rfl (.stays Iff.rfl)
    · exact FlushPc.moves trivial trivial rfl (.stays Iff.rfl)
  · exact FlushPc.moves trivial trivial rfl (.releases trivial id)
  · trivial

/-- A step of a call, whichever it is. -/
theorem Call.step_moves (k : Skel) {call : Call} (hcall : call.Sound) (e : CallEvent) :
    Yields (fun r => call.Moves c k r.1 r.2) (call.step c k e) := by
  unfold Call.step
  split
  · exact (readStep_moves k _ _ _ _).bind fun _ h => h
  · exact (writeStep_moves k _ hcall rfl _).bind fun _ h => h
  · exact (flushStep_moves k _ _ _).bind fun _ h => h
  · trivial

theorem readStep_safely (k : Skel) (args : ReadArgs) (pc : ReadPc) (e : ReadEvent) :
    Safely (fun _ => True) (readStep c args k pc e) := by
  unfold readStep
  split
  all_goals first
    | trivial
    | exact meets_ite (fun _ => trivial) fun _ => trivial
    | exact meets_ite (fun _ => trivial) fun _ => rfl
    | exact meets_ite (fun _ => rfl) fun _ => trivial

theorem flushStep_safely (k : Skel) (pc : FlushPc) (e : FlushEvent) :
    Safely (fun _ => True) (flushStep c k pc e) := by
  unfold flushStep
  split
  all_goals first
    | trivial
    | exact meets_ite (fun _ => trivial) fun _ => trivial
    | exact meets_ite (fun _ => trivial) fun _ => rfl

theorem Call.step_sound (k : Skel) {call : Call} (hcall : call.Sound) (e : CallEvent) :
    Safely (fun r => r.2.Sound) (call.step c k e) := by
  unfold Call.step
  split
  · exact (readStep_safely k _ _ _).bind fun _ _ => trivial
  · exact (writeStep_sound c k hcall _).bind fun _ h => h
  · exact (flushStep_safely k _ _).bind fun _ _ => trivial
  · rfl

end

/-! ## Completions, beginnings and ends -/

/-- What a step of the completion of the write does to the device and to the write. -/
structure WriteCall.Completes (k : Skel) (w : WriteCall) (k' : Skel) (w' : WriteCall) : Prop where
  kref : k'.kref = k.kref
  disconnected : k'.disconnected = k.disconnected
  ioMutex : k'.ioMutex = k.ioMutex
  bulkInUrb : k'.bulkInUrb = k.bulkInUrb
  pc : w'.pc = w.pc
  data : w'.data = w.data
  submitted : k'.submitted ≤ k.submitted
  underWay : ∀ f, Census.Move Call.UnderWay (.write f w) (.write f w') k.submitted k'.submitted
  limit : ∀ f, Census.Draw Call.HoldsToken (.write f w) (.write f w') k.limitSem k'.limitSem

theorem hcdStep_completes (k : Skel) (w : WriteCall) {hcd : Hcd} (hhcd : w.hcd = hcd)
    (e : HcdEvent) : Yields (fun r => w.Completes k r.1 r.2) (hcdStep k w hcd e) := by
  have hgo : hcd ≠ .never → ∀ k' : Skel, ∀ w' : WriteCall, w'.hcd ≠ .never →
      (w'.hcd.UnderWay ↔ hcd.UnderWay) →
      (k'.kref, k'.disconnected, k'.ioMutex, k'.bulkInUrb, k'.submitted, k'.limitSem) =
        (k.kref, k.disconnected, k.ioMutex, k.bulkInUrb, k.submitted, k.limitSem) →
      (w'.pc, w'.data) = (w.pc, w.data) →
      Yields (fun r => w.Completes k r.1 r.2) (.ok (k', w')) := by
    intro hne k' w' hne' hiff hsame hsame'
    simp only [Prod.mk.injEq] at hsame hsame'
    obtain ⟨hkref, hdisc, hmutex, hurb, hsubmitted, hlimit⟩ := hsame
    obtain ⟨hpc, hdata⟩ := hsame'
    refine ⟨hkref, hdisc, hmutex, hurb, hpc, hdata, hsubmitted.le,
      fun _ => hsubmitted ▸ .stays ?_, fun _ => hlimit ▸ .stays ?_⟩
    · change w'.hcd.UnderWay ↔ w.hcd.UnderWay
      rw [hiff, hhcd]
    · change w'.HoldsToken ↔ w.HoldsToken
      rw [WriteCall.holdsToken_of_sent w' hne', WriteCall.holdsToken_of_sent w (hhcd ▸ hne), hiff,
        hhcd]
  unfold hcdStep
  split
  case h_4 =>
    have hin : w.hcd.UnderWay := hhcd ▸ trivial
    exact ⟨rfl, rfl, rfl, rfl, rfl, rfl, Nat.sub_le _ 1, fun _ => .leaves hin id,
      fun _ => .gives ((WriteCall.holdsToken_of_sent w (hhcd ▸ nofun)).mpr hin) id⟩
  case h_6 => trivial
  all_goals replace hgo := hgo nofun
  · refine (meets_of_ok fun _ _ => trivial).bind fun urb _ =>
      hgo _ _ ?_ ?_ rfl rfl
    · dsimp only
      split <;> nofun
    · dsimp only
      split <;> exact Iff.rfl
  · exact hgo _ _ nofun Iff.rfl rfl rfl
  · exact (meets_of_ok fun _ _ => trivial).bind fun urb _ =>
      hgo _ _ nofun Iff.rfl rfl rfl
  · exact (meets_of_ok fun _ _ => trivial).bind fun urb _ =>
      hgo _ _ nofun Iff.rfl rfl rfl

end LddSamples.Usb

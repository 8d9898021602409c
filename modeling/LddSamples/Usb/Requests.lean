import LddSamples.Usb.Skeleton

/-!
# The request and the buffer of one write

Between `usb_alloc_urb` and its last `usb_free_urb` the references to a request are those of the
writer, of the anchor and of the USB core. Each step of a write and each step of its completion
keep the account, in whatever order they come, and none of them lets go of something twice.
-/

namespace LddSamples.Usb

open Kernel Outcome

/-- A step that comes to a state with `P`, or cannot be taken now. -/
abbrev Safely {α : Type} (P : α → Prop) : Except Stop α → Prop := Meets (· = .disabled) P

/-- A step that comes to no state without `P`. -/
abbrev Yields {α : Type} (P : α → Prop) : Except Stop α → Prop := Meets (fun _ => True) P

/-! ## References -/

/-- A request with these references, which was freed when they came to an end. -/
def Urb.counting (refs : ℕ) (anchored : Bool) : Urb := ⟨refs, anchored, if refs = 0 then 1 else 0⟩

theorem Urb.put_counting (refs : ℕ) (anchored : Bool) :
    (counting (refs + 1) anchored).put = .ok (counting refs anchored) := by
  cases refs with
  | zero => rfl
  | succ refs => rfl

theorem Urb.unanchor_counting (refs : ℕ) :
    (counting (refs + 1) true).unanchor = .ok (counting refs false) :=
  put_counting refs false

/-- The writer's own reference once the request has been submitted. -/
def WritePc.refs : WritePc → ℕ
  | .unlocking _ => 1
  | .putting => 1
  | _ => 0

/-- The reference of the USB core, and that of the anchor. -/
def Hcd.refs : Hcd → ℕ
  | .never => 0
  | .inFlight => 2
  | .reporting _ => 1
  | .freeing => 1
  | .upping => 1
  | .putting => 1
  | .over => 0

def Hcd.anchored : Hcd → Bool
  | .inFlight => true
  | _ => false

/-- The callback has not yet freed the buffer. -/
def Hcd.Holds : Hcd → Prop
  | .inFlight => True
  | .reporting _ => True
  | .freeing => True
  | _ => False

/-- What a write has that has not submitted its request, by where it stands. -/
def WritePc.Unsent (data : List UInt8) (urb : Urb) (buf : Buffer) : WritePc → Prop
  | .downing => urb = ⟨0, false, 0⟩ ∧ buf = .null
  | .looking => urb = ⟨0, false, 0⟩ ∧ buf = .null
  | .allocating => urb = ⟨0, false, 0⟩ ∧ buf = .null
  | .buffering => urb = ⟨1, false, 0⟩ ∧ buf = .null
  | .copying => urb = ⟨1, false, 0⟩ ∧ buf = .held
  | .locking => urb = ⟨1, false, 0⟩ ∧ buf = .held
  | .anchoring => urb = ⟨1, false, 0⟩ ∧ buf = .held
  | .submitting => urb = ⟨2, true, 0⟩ ∧ buf = .held
  | .unlocking retval => retval < 0 ∧ urb = ⟨2, true, 0⟩ ∧ buf = .held
  | .putting => False
  | .unanchoring retval => retval < 0 ∧ urb = ⟨2, true, 0⟩ ∧ buf = .held
  | .freeingBuffer retval => retval < 0 ∧ urb = ⟨1, false, 0⟩ ∧ buf ≠ .freed
  | .freeingUrb retval => retval < 0 ∧ urb = ⟨1, false, 0⟩ ∧ buf ≠ .held
  | .upping retval => retval < 0 ∧ (urb.refs = 0 ∧ urb.frees ≤ 1) ∧ buf ≠ .held
  | .leaving retval => (retval < 0 ∨ retval = 0 ∧ data = []) ∧
      (urb.refs = 0 ∧ urb.frees ≤ 1) ∧ buf ≠ .held
  | .returned retval => (retval < 0 ∨ retval = 0 ∧ data = []) ∧
      (urb.refs = 0 ∧ urb.frees ≤ 1) ∧ buf ≠ .held

/-- A write whose request has been submitted is on its way to its result. -/
def WritePc.Succeeds (writesize : ℕ) : WritePc → Prop
  | .unlocking retval => retval = 0
  | .putting => True
  | .leaving retval => retval = writesize
  | .returned retval => retval = writesize
  | _ => False

def WritePc.Out : WritePc → Prop
  | .leaving _ => True
  | .returned _ => True
  | _ => False

/-- The request of a write that has submitted it, by the two that go on with it. -/
structure WriteCall.Sent (w : WriteCall) : Prop where
  succeeds : w.pc.Succeeds w.writesize
  urb : w.urb = .counting (w.pc.refs + w.hcd.refs) w.hcd.anchored
  buf : (w.hcd.Holds → w.buf = .held) ∧ (¬ w.hcd.Holds → w.buf = .freed)

structure WriteCall.Sound (w : WriteCall) : Prop where
  unsent : w.hcd = .never → w.pc.Unsent w.data w.urb w.buf
  sent : w.hcd ≠ .never → w.Sent
  failed : ∀ status, w.hcd = .reporting status → status ≠ 0
  empty : w.data = [] → w.pc.Out ∧ w.hcd = .never

theorem Skel.errorOf_neg {errors : ℤ} (h : errors < 0) : Skel.errorOf errors < 0 := by
  unfold Skel.errorOf
  split
  · exact h
  · decide

theorem WriteCall.Sound.unsent_of {w w' : WriteCall} (hw : w.Sound) (hbusy : ¬ w.pc.Out)
    (hhcd : w'.hcd = .never) (hdata : w'.data = w.data)
    (hunsent : w'.pc.Unsent w'.data w'.urb w'.buf) : w'.Sound where
  unsent _ := hunsent
  sent h := absurd hhcd h
  failed _ h := nomatch hhcd.symm.trans h
  empty h := absurd (hw.empty (hdata ▸ h)).1 hbusy

theorem WriteCall.Sound.sent_of {w w' : WriteCall} (hw : w.Sound) (hbusy : ¬ w.pc.Out)
    (hhcd : w'.hcd ≠ .never) (hsame : w'.hcd = w.hcd ∨ w'.hcd = .inFlight)
    (hdata : w'.data = w.data) (hsent : w'.Sent) : w'.Sound where
  unsent h := absurd h hhcd
  sent _ := hsent
  failed status h := by
    rcases hsame with hsame | hsame
    · exact hw.failed status (hsame.symm.trans h)
    · exact nomatch hsame.symm.trans h
  empty h := absurd (hw.empty (hdata ▸ h)).1 hbusy

theorem Buffer.free_safely {buf : Buffer} (h : buf ≠ .freed) : Safely (· ≠ .held) buf.free := by
  cases buf with
  | null => exact nofun
  | held => exact nofun
  | freed => exact absurd rfl h

/-- A step of a write that has not submitted its request, which may submit it. -/
theorem writeStep_unsent (c : ℕ) (k : Skel) {w : WriteCall} (hw : w.Sound) (hhcd : w.hcd = .never)
    {pc : WritePc} (hpc : w.pc = pc) (e : WriteEvent) :
    Safely (fun r => r.2.Sound) (writeStep c k w pc e) := by
  have hunsent : pc.Unsent w.data w.urb w.buf := hpc ▸ hw.unsent hhcd
  have hgo : ¬ pc.Out → ∀ k' : Skel, ∀ w' : WriteCall, w'.hcd = .never → w'.data = w.data →
      w'.pc.Unsent w'.data w'.urb w'.buf → Safely (fun r => r.2.Sound) (Except.ok (k', w')) :=
    fun hbusy _ _ h hdata hu => hw.unsent_of (hpc ▸ hbusy) h hdata hu
  unfold writeStep
  split
  case h_16 => exact rfl
  all_goals
    replace hgo := hgo id
    simp only [WritePc.Unsent] at hunsent
  · refine meets_ite (fun _ => hgo _ _ hhcd rfl hunsent) fun _ =>
      meets_ite (fun _ => hgo _ _ hhcd rfl ?_) fun _ => rfl
    simp [WritePc.Unsent, hunsent, EAGAIN]
  · refine meets_ite (fun _ => rfl) fun _ => hgo _ _ hhcd rfl ?_
    simp [WritePc.Unsent, hunsent, ERESTARTSYS]
  · refine meets_ite (fun herr => hgo _ _ hhcd rfl ?_) fun _ => hgo _ _ hhcd rfl hunsent
    simp [WritePc.Unsent, hunsent, Skel.errorOf_neg herr]
  · refine hgo _ _ (by split <;> exact hhcd) (by split <;> rfl) ?_
    split <;> simp [WritePc.Unsent, hunsent, ENOMEM]
  · refine hgo _ _ (by split <;> exact hhcd) (by split <;> rfl) ?_
    split <;> simp [WritePc.Unsent, hunsent, ENOMEM]
  · refine hgo _ _ hhcd rfl ?_
    split <;> simp [WritePc.Unsent, hunsent, EFAULT]
  · refine meets_ite (fun _ => meets_ite (fun _ => hgo _ _ hhcd rfl ?_) fun _ =>
      hgo _ _ hhcd rfl hunsent) fun _ => rfl
    simp [WritePc.Unsent, hunsent, ENODEV]
  · refine hgo _ _ hhcd rfl ?_
    simp [WritePc.Unsent, hunsent, Urb.get]
  · refine meets_ite (fun _ => ?_) fun herrno => hgo _ _ hhcd rfl ?_
    · refine hw.sent_of (hpc ▸ id) nofun (.inr rfl) rfl ⟨rfl, ?_, ?_⟩
      · rw [hunsent.1]
        rfl
      · simp [hunsent.2, Hcd.Holds]
    · simp [WritePc.Unsent, hunsent, Nat.pos_of_ne_zero herrno]
  · refine hgo _ _ hhcd rfl ?_
    rw [if_neg hunsent.1.ne]
    exact hunsent
  · obtain ⟨hneg, hurb, hbuf⟩ := hunsent
    rw [hurb]
    refine hgo _ _ hhcd rfl ?_
    simp [WritePc.Unsent, hneg, hbuf]
  · obtain ⟨hneg, hurb, hbuf⟩ := hunsent
    refine (Buffer.free_safely hbuf).bind fun buf hfree => hgo _ _ hhcd rfl ?_
    exact ⟨hneg, hurb, hfree⟩
  · obtain ⟨hneg, hurb, hbuf⟩ := hunsent
    rw [hurb]
    refine hgo _ _ hhcd rfl ?_
    simp [WritePc.Unsent, hneg, hbuf]
  · refine hgo _ _ hhcd rfl ?_
    exact ⟨Or.inl hunsent.1, hunsent.2⟩

/-- The writer's last step with its request, whatever the USB core has done with it by then. -/
theorem writeStep_sent (c : ℕ) (k : Skel) {w : WriteCall} (hw : w.Sound) (hhcd : w.hcd ≠ .never)
    {pc : WritePc} (hpc : w.pc = pc) (e : WriteEvent) :
    Safely (fun r => r.2.Sound) (writeStep c k w pc e) := by
  obtain ⟨hsucceeds, hurb, hbuf⟩ := hw.sent hhcd
  rw [hpc] at hsucceeds hurb
  unfold writeStep
  split
  case h_10 =>
    refine hw.sent_of (hpc ▸ id) hhcd (.inl rfl) rfl ⟨?_, ?_, hbuf⟩
    · simp [if_pos (show _ = (0 : ℤ) from hsucceeds), WritePc.Succeeds]
    · simp [if_pos (show _ = (0 : ℤ) from hsucceeds), hurb, WritePc.refs]
  case h_11 =>
    rw [hurb, WritePc.refs, Nat.add_comm, Urb.put_counting]
    exact hw.sent_of (hpc ▸ id) hhcd (.inl rfl) rfl ⟨rfl, by simp [WritePc.refs], hbuf⟩
  case h_16 => exact rfl
  all_goals exact absurd hsucceeds id

theorem writeStep_sound (c : ℕ) (k : Skel) {w : WriteCall} (hw : w.Sound) (e : WriteEvent) :
    Safely (fun r => r.2.Sound) (writeStep c k w w.pc e) := by
  by_cases hhcd : w.hcd = .never
  · exact writeStep_unsent c k hw hhcd rfl e
  · exact writeStep_sent c k hw hhcd rfl e

theorem hcdStep_sound (k : Skel) {w : WriteCall} (hw : w.Sound) {hcd : Hcd} (hhcd : w.hcd = hcd)
    (e : HcdEvent) : Safely (fun r => r.2.Sound) (hcdStep k w hcd e) := by
  have hgo : hcd ≠ .never → ∀ k' : Skel, ∀ w' : WriteCall, w'.hcd ≠ .never → w'.pc = w.pc →
      w'.data = w.data → w'.urb = .counting (w.pc.refs + w'.hcd.refs) w'.hcd.anchored →
      ((w'.hcd.Holds → w'.buf = .held) ∧ (¬ w'.hcd.Holds → w'.buf = .freed)) →
      (∀ status, w'.hcd = .reporting status → status ≠ 0) →
      Safely (fun r => r.2.Sound) (Except.ok (k', w')) := by
    intro hhcd' k' w' hnever hpc hdata hurb hbuf hfailed
    have hsucceeds := (hw.sent (hhcd ▸ hhcd')).succeeds
    refine ⟨fun h => absurd h hnever, fun _ => ⟨?_, hpc ▸ hurb, hbuf⟩, hfailed, fun hempty => ?_⟩
    · rwa [hpc, WriteCall.writesize, hdata]
    · exact absurd (hhcd ▸ (hw.empty (hdata ▸ hempty)).2) hhcd'
  unfold hcdStep
  split
  case h_6 => exact rfl
  all_goals
    replace hgo := hgo nofun
    obtain ⟨-, hurb, hbuf⟩ := hw.sent (hhcd ▸ nofun)
    rw [hhcd] at hurb hbuf
  case h_1 status =>
    rw [hurb, Hcd.refs, Hcd.anchored, Urb.unanchor_counting]
    by_cases hstatus : status = 0
    · rw [if_pos hstatus]
      exact hgo _ _ nofun rfl rfl rfl hbuf nofun
    · rw [if_neg hstatus]
      exact hgo _ _ nofun rfl rfl rfl hbuf fun _ h => Hcd.reporting.inj h ▸ hstatus
  · exact hgo _ _ nofun rfl rfl hurb hbuf nofun
  · rw [hbuf.1 trivial]
    exact hgo _ _ nofun rfl rfl hurb ⟨False.elim, fun _ => rfl⟩ nofun
  · exact hgo _ _ nofun rfl rfl hurb hbuf nofun
  · rw [hurb, Hcd.refs, Urb.put_counting]
    exact hgo _ _ nofun rfl rfl rfl hbuf nofun

end LddSamples.Usb
